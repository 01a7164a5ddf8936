import Script.Proofs.Grammar.Taking

/-! What a reading takes.
Wherever it starts, a reading takes some of the next tokens, keeps the complaints so far and
restores the number of loops around. -/
namespace Script.Grammar

variable {α β γ δ : Type}

/-- How a reading ends that started at `r`. With more fuel it is the reading `y`. -/
inductive Covered (more : List Token) (fuel cost least ahead : Nat) (y : Reading α)
    (Q : α → List Token → Prop) (r : Reader) : EStateM.Result Stop Reader α → Prop
  | ok {a s} (taken : List Token) (split : r.rest = taken ++ s.rest)
    (many : least ≤ taken.length) (kept : r.reports <+: s.reports) (loops : s.loops = r.loops)
    (post : s.reports = r.reports → Q a taken)
    (again : s.reports = r.reports → ahead ≤ s.rest.length →
      Takes r.loops y (r.rest ++ more) a (s.rest ++ more)) :
    Covered more fuel cost least ahead y Q r (.ok a s)
  | complaint {report s} (left : s.rest <:+ r.rest) (kept : r.reports <+: s.reports)
    (loops : s.loops = r.loops) :
    Covered more fuel cost least ahead y Q r (.error (.complaint report) s)
  | exhausted {s} (short : fuel < 24 * r.rest.length + cost) :
    Covered more fuel cost least ahead y Q r (.error .exhausted s)

def Covers (P : List Token → Prop) (more : List Token) (fuel cost least ahead : Nat)
    (x y : Reading α) (Q : α → List Token → Prop) : Prop :=
  ∀ r, P r.rest → Covered more fuel cost least ahead y Q r (x r)

def Anywhere (_ : List Token) : Prop := True

def Before (t : Token) (tokens : List Token) : Prop := tokens.head? = some t

def Took (kind : Kind) (line : Nat) (ts : List Token) : Prop :=
  ∃ t, ts = [t] ∧ t.kind = kind ∧ t.line = line

theorem resume_suffix (tokens : List Token) : resume tokens <:+ tokens.tail := by
  have after : ∀ (rest : List Token) (t : Token), resumeAfter t rest <:+ rest := by
    intro rest
    induction rest with
    | nil => exact fun _ => List.suffix_refl _
    | cons u rest ih =>
      intro t
      rw [resumeAfter]
      split
      · exact List.suffix_refl _
      · exact (ih u).trans (List.suffix_cons u rest)
  cases tokens with
  | nil => exact List.suffix_refl _
  | cons t rest => exact after rest t

theorem reports_between {a b c : List Report} (hab : a <+: b) (hbc : b <+: c) (h : c = a) :
    b = a ∧ c = b := by
  subst h
  have same := hbc.eq_of_length (Nat.le_antisymm hbc.length_le hab.length_le)
  exact ⟨same, same.symm⟩

def Notes (z : Reading Unit) : Prop :=
  ∀ r, ∃ report, z r = .ok () { r with reports := r.reports ++ [report] }

theorem notes_here (complaint : Complaint) : Notes (noteHere complaint) :=
  fun r => ⟨r.report complaint, rfl⟩

theorem notes_report (report : Report) : Notes (note report) := fun _ => ⟨report, rfl⟩

namespace Covers

variable {P : List Token → Prop} {more : List Token} {fuel c d l k m n : Nat} {x y : Reading α}
  {Q : α → List Token → Prop} {R : β → List Token → Prop} {t : Token} {kind : Kind}

theorem within (h : Covers Anywhere more fuel c l m x y Q) : Covers P more fuel c l m x y Q :=
  fun r _ => h r trivial

theorem mono {S : α → List Token → Prop} (h : Covers P more fuel c l m x y Q)
    (hb : c ≤ d ∧ k ≤ l ∧ m ≤ n) (hq : ∀ a ts, Q a ts → S a ts) :
    Covers P more fuel d k n x y S := by
  intro r hr
  have he := h r hr
  generalize x r = rx at he ⊢
  cases he with
  | ok taken split many kept loops post again =>
    exact .ok taken split (by omega) kept loops (fun clean => hq _ _ (post clean))
      fun clean ahead => again clean (by omega)
  | complaint left kept loops => exact .complaint left kept loops
  | exhausted short => exact .exhausted (by omega)

theorem bounds (h : Covers P more fuel c l m x y Q) (hb : c ≤ d ∧ k ≤ l ∧ m ≤ n) :
    Covers P more fuel d k n x y Q := h.mono hb fun _ _ hq => hq

theorem atLeast (k : Nat) (h : Covers P more fuel c k m x y Q) (hl : l ≤ k) :
    Covers P more fuel c l m x y Q := h.bounds ⟨Nat.le_refl c, hl, Nat.le_refl m⟩

/-- A step down the grammar that takes no token costs one. -/
theorem succ (h : Covers P more fuel c l m x y Q) : Covers P more (fuel + 1) (c + 1) l m x y Q := by
  intro r hr
  have he := h r hr
  generalize x r = rx at he ⊢
  cases he with
  | ok taken split many kept loops post again =>
    exact .ok taken split many kept loops post again
  | complaint left kept loops => exact .complaint left kept loops
  | exhausted short => exact .exhausted (by omega)

theorem exhaust : Covers P more 0 (c + 1) l m Grammar.exhaust y Q :=
  fun _ _ => .exhausted (by omega)

theorem stop {missing : Missing} : Covers P more fuel c l m (Grammar.stop missing) y Q :=
  fun _ _ => .complaint (List.suffix_refl _) (List.prefix_refl _) rfl

theorem pure {a : α} (h : Q a []) : Covers P more fuel c 0 m (Pure.pure a) (Pure.pure a) Q :=
  fun _ _ => .ok [] rfl (Nat.le_refl 0) (List.prefix_refl _) rfl (fun _ => h) fun _ _ => .refl

/-- One reading behind another. What is left of the first has to be enough for it to look ahead. -/
theorem bind {f : α → Reading β} {g : α → Reading β} (h : Covers P more fuel d k n x y Q)
    (hb : d ≤ c ∧ n ≤ l - k + m)
    (hf : ∀ a, Covers Anywhere more fuel (c + 24 * k) (l - k) m (f a) (g a)
      fun b ts => ∀ us, Q a us → R b (us ++ ts)) :
    Covers P more fuel c l m (x >>= f) (y >>= g) R := by
  intro r hr
  have he := h r hr
  simp only [Bind.bind, EStateM.bind]
  generalize x r = rx at he ⊢
  cases he with
  | complaint left kept loops => exact .complaint left kept loops
  | exhausted short => exact .exhausted (by omega)
  | @ok a s taken split many kept loops post again =>
    have he := hf a s trivial
    have fewer : r.rest.length = taken.length + s.rest.length := by rw [split, List.length_append]
    simp only
    generalize f a s = rf at he ⊢
    cases he with
    | complaint left kept' loops' =>
      exact .complaint (left.trans (split ▸ List.suffix_append _ _)) (kept.trans kept')
        (loops'.trans loops)
    | exhausted short => exact .exhausted (by omega)
    | @ok b s' taken' split' many' kept' loops' post' again' =>
      have fewer' : s.rest.length = taken'.length + s'.rest.length := by
        rw [split', List.length_append]
      refine .ok (taken ++ taken') (by rw [split, split', List.append_assoc])
        (by rw [List.length_append]; omega) (kept.trans kept') (loops'.trans loops) ?_ ?_
      · intro clean
        obtain ⟨first, second⟩ := reports_between kept kept' clean
        exact post' second taken (post first)
      · intro clean ahead
        obtain ⟨first, second⟩ := reports_between kept kept' clean
        have behind := again' second ahead
        rw [loops] at behind
        exact (again first (by omega)).bind behind

theorem map {f : α → β} (h : Covers P more fuel c l m x y Q) (hr : ∀ a ts, Q a ts → R (f a) ts) :
    Covers P more fuel c l m (f <$> x) (f <$> y) R := by
  intro r hP
  have he := h r hP
  simp only [Functor.map, EStateM.map]
  generalize x r = rx at he ⊢
  cases he with
  | ok taken split many kept loops post again =>
    exact .ok taken split many kept loops (fun clean => hr _ _ (post clean))
      fun clean ahead => (again clean ahead).map
  | complaint left kept loops => exact .complaint left kept loops
  | exhausted short => exact .exhausted short

theorem noted {z : Reading Unit} {w : Reading α} {S : α → List Token → Prop} (hz : Notes z)
    (h : Covers P more fuel c l m x y Q) : Covers P more fuel c l m (z >>= fun _ => x) w S := by
  intro r hr
  obtain ⟨report, hr'⟩ := hz r
  have he := h { r with reports := r.reports ++ [report] } hr
  simp only [Bind.bind, EStateM.bind, hr']
  generalize x _ = rx at he ⊢
  cases he with
  | @ok a s taken split many kept loops post again =>
    have dirty : s.reports ≠ r.reports := by
      intro clean
      have := kept.length_le
      simp only [clean, List.length_append, List.length_singleton] at this
      omega
    exact .ok taken split many ((List.prefix_append _ _).trans kept) loops
      (fun clean => absurd clean dirty) fun clean => absurd clean dirty
  | complaint left kept loops =>
    exact .complaint left ((List.prefix_append _ _).trans kept) loops
  | exhausted short => exact .exhausted short

theorem noteIf {cond : Prop} [Decidable cond] {z : Reading Unit} (hz : Notes z)
    (h : Covers P more fuel c l m x y Q) :
    Covers P more fuel c l m (if cond then z >>= fun _ => x else x)
      (if cond then z >>= fun _ => y else y) Q := by
  by_cases hc : cond
  · simp only [if_pos hc]
    exact h.noted hz
  · simp only [if_neg hc]
    exact h

/-- Before the end of the tokens, a reading that needs one never goes on as `y` would. -/
theorem stuck {z : Reading α} {r : Reader} (h : Covered more fuel c l m y Q r (x r))
    (hr : r.rest = []) (hn : 1 ≤ l + m) : Covered more fuel c l m z Q r (x r) := by
  generalize x r = rx at h ⊢
  cases h with
  | ok taken split many kept loops post =>
    refine .ok taken split many kept loops post fun _ ahead => ?_
    have none := congrArg List.length split
    rw [hr, List.length_nil, List.length_append] at none
    omega
  | complaint left kept loops => exact .complaint left kept loops
  | exhausted short => exact .exhausted short

theorem peek_bind {f g : Option Token → Reading α} {z : Reading α} (hn : 1 ≤ l + m)
    (nil : Covers Anywhere more fuel c l m (f none) z Q)
    (cons : ∀ t, Covers (Before t) more fuel c l m (f (some t)) (g (some t)) Q) :
    Covers Anywhere more fuel c l m (peek >>= f) (peek >>= g) Q := by
  intro r _
  show Covered more fuel c l m (peek >>= g) Q r (f r.rest.head? r)
  cases hr : r.rest with
  | nil => exact stuck (nil r trivial) hr hn
  | cons t rest =>
    have he := cons t r (by rw [hr]; rfl)
    simp only [List.head?_cons]
    generalize f (some t) r = rf at he ⊢
    cases he with
    | complaint left kept loops => exact .complaint left kept loops
    | exhausted short => exact .exhausted short
    | ok taken split many kept loops post again =>
      refine .ok taken split many kept loops post fun clean ahead => ?_
      have behind := again clean ahead
      rw [hr] at behind ⊢
      exact Leads.peek.bind behind

/-- A reading that only looks at the next tokens, in front of another one. `n` of them have to be
left for it to see the same with others behind. -/
theorem look_bind {z : Reading β} {b : β} {f g : β → Reading α} {r : Reader} (hz : z r = .ok b r)
    (hn : n ≤ l + m)
    (again : n ≤ r.rest.length → Takes r.loops z (r.rest ++ more) b (r.rest ++ more))
    (h : Covered more fuel c l m (g b) Q r (f b r)) :
    Covered more fuel c l m (z >>= g) Q r ((z >>= f) r) := by
  simp only [Bind.bind, EStateM.bind, hz]
  generalize f b r = rf at h ⊢
  cases h with
  | complaint left kept loops => exact .complaint left kept loops
  | exhausted short => exact .exhausted short
  | @ok a s taken split many kept loops post again' =>
    refine .ok taken split many kept loops post fun clean ahead => ?_
    have length : r.rest.length = taken.length + s.rest.length := by
      rw [split, List.length_append]
    exact (again (by omega)).bind (again' clean ahead)

theorem append_next {tokens : List Token} (h : Next (· ≠ kind) tokens)
    (hn : 1 ≤ tokens.length ∨ Next (· ≠ kind) more) : Next (· ≠ kind) (tokens ++ more) := by
  cases tokens with
  | nil => exact hn.resolve_left (by simp)
  | cons t rest => exact h

theorem next_of_leads {r : Reader} (h : r.leads kind = false) : Next (· ≠ kind) r.rest := by
  intro t ht
  obtain ⟨rest, hr⟩ := List.head?_eq_some_iff.mp ht
  simp only [Reader.leads, hr] at h
  exact beq_eq_false_iff_ne.mp h

theorem before_of_leads {r : Reader} (h : r.leads kind = true) :
    ∃ t, Before t r.rest ∧ t.kind = kind := by
  rw [Reader.leads] at h
  split at h
  · contradiction
  · exact ⟨_, by rw [Before, ‹r.rest = _›]; rfl, beq_iff_eq.mp h⟩

theorem at_bind {f g : Bool → Reading α} (hn : 1 ≤ l + m)
    (yes : ∀ t, t.kind = kind → Covers (Before t) more fuel c l m (f true) (g true) Q)
    (no : Covers Anywhere more fuel c l m (f false) (g false) Q) :
    Covers Anywhere more fuel c l m (at_ kind >>= f) (at_ kind >>= g) Q := by
  intro r _
  cases h : r.leads kind with
  | false =>
    refine look_bind (b := false) (by rw [at_, h]) hn (fun left => ?_) (no r trivial)
    exact .at_no (append_next (next_of_leads h) (.inl left))
  | true =>
    obtain ⟨t, ht, hk⟩ := before_of_leads h
    obtain ⟨rest, hr⟩ := List.head?_eq_some_iff.mp ht
    refine look_bind (b := true) (by rw [at_, h]) hn (fun _ => ?_) (yes t hk r ht)
    rw [hr]
    exact .at_yes hk

theorem at_before {f g : Bool → Reading α}
    (h : Covers (Before t) more fuel c l m (f (t.kind == kind)) (g (t.kind == kind)) Q) :
    Covers (Before t) more fuel c l m (at_ kind >>= f) (at_ kind >>= g) Q := by
  intro r ht
  obtain ⟨rest, hr⟩ := List.head?_eq_some_iff.mp ht
  refine look_bind (n := 0) (b := t.kind == kind) ?_ (Nat.zero_le _) (fun _ => ?_) (h r ht)
  · simp only [at_, Reader.leads, hr]
  · intro endLine reports
    simp only [at_, Reader.leads, hr]
    rfl

theorem nameFollows_bind {f g : Bool → Reading α} (hn : 2 ≤ l + m)
    (h : ∀ b, Covers P more fuel c l m (f b) (g b) Q) :
    Covers P more fuel c l m (nameFollows >>= f) (nameFollows >>= g) Q := by
  intro r hr
  refine look_bind (z := nameFollows) rfl hn (fun left => ?_) (h _ r hr)
  match r.rest, left with
  | t :: u :: rest, _ => exact fun _ _ => rfl

theorem atEnd_bind {f g : Bool → Reading α} {z : Reading α} (hn : 1 ≤ l + m)
    (yes : Covers Anywhere more fuel c l m (f true) z Q)
    (no : ∀ t, Covers (Before t) more fuel c l m (f false) (g false) Q) :
    Covers Anywhere more fuel c l m (atEnd >>= f) (atEnd >>= g) Q := by
  intro r _
  cases hr : r.rest with
  | nil =>
    show Covered more fuel c l m (atEnd >>= g) Q r (f r.rest.isEmpty r)
    rw [hr]
    exact stuck (yes r trivial) hr hn
  | cons t rest =>
    refine look_bind (n := 0) (b := false) ?_ (Nat.zero_le _) (fun _ => ?_)
      (no t r (by rw [hr]; rfl))
    · rw [atEnd, hr]
      rfl
    · rw [hr]
      exact .atEnd_cons

theorem loopsAround_bind {f g : Nat → Reading α}
    (h : ∀ loops, Covers P more fuel c l m (f loops) (g loops) Q) :
    Covers P more fuel c l m (loopsAround >>= f) (loopsAround >>= g) Q := by
  intro r hr
  exact look_bind (n := 0) rfl (Nat.zero_le _) (fun _ => .loopsAround) (h _ r hr)

theorem take_bind {z : Reading β} {b : β} {f g : β → Reading α} {r : Reader} {rest : List Token}
    (hr : r.rest = t :: rest) (hz : z r = .ok b { r with rest := rest })
    (again : Takes r.loops z (t :: (rest ++ more)) b (rest ++ more))
    (h : Covers Anywhere more fuel (c + 24) (l - 1) m (f b) (g b) fun a ts => Q a (t :: ts)) :
    Covered more fuel c l m (z >>= g) Q r ((z >>= f) r) := by
  have he := h { r with rest := rest } trivial
  have length : r.rest.length = rest.length + 1 := by rw [hr, List.length_cons]
  simp only [Bind.bind, EStateM.bind, hz]
  generalize f b _ = rf at he ⊢
  cases he with
  | complaint left kept loops =>
    exact .complaint (hr ▸ left.trans (List.suffix_cons _ _)) kept loops
  | exhausted short => exact .exhausted (by simp only at short; omega)
  | @ok a s taken split many kept loops post again' =>
    simp only at split
    refine .ok (t :: taken) (by rw [hr, split, List.cons_append]) (by rw [List.length_cons]; omega)
      kept loops post fun clean ahead => ?_
    rw [hr]
    exact again.bind (again' clean ahead)

theorem advance_bind {f g : Unit → Reading α}
    (h : Covers Anywhere more fuel (c + 24) (l - 1) m (f ()) (g ()) fun a ts => Q a (t :: ts)) :
    Covers (Before t) more fuel c l m (advance >>= f) (advance >>= g) Q := by
  intro r ht
  obtain ⟨rest, hr⟩ := List.head?_eq_some_iff.mp ht
  exact take_bind hr (by rw [advance, hr]; rfl) .advance h

theorem accept_bind {f g : Bool → Reading α} (hn : 1 ≤ l + m ∨ Next (· ≠ kind) more)
    (yes : Covers Anywhere more fuel (c + 24) (l - 1) m (f true) (g true) fun a ts =>
      ∀ us line, Took kind line us → Q a (us ++ ts))
    (no : Covers Anywhere more fuel c l m (f false) (g false) Q) :
    Covers Anywhere more fuel c l m (accept kind >>= f) (accept kind >>= g) Q := by
  intro r _
  cases h : r.leads kind with
  | false =>
    have kept : accept kind r = .ok false r := by rw [accept, h, if_neg Bool.false_ne_true]
    have again (left : 1 ≤ r.rest.length ∨ Next (· ≠ kind) more) :
        Takes r.loops (accept kind) (r.rest ++ more) false (r.rest ++ more) :=
      .accept_no (append_next (next_of_leads h) left)
    cases hn with
    | inl hn => exact look_bind kept hn (fun left => again (.inl left)) (no r trivial)
    | inr hn => exact look_bind kept (Nat.zero_le _) (fun _ => again (.inr hn)) (no r trivial)
  | true =>
    obtain ⟨t, ht, hk⟩ := before_of_leads h
    obtain ⟨rest, hr⟩ := List.head?_eq_some_iff.mp ht
    refine take_bind hr ?_ (.accept_yes hk) (yes.mono (by omega) fun a ts hq =>
      hq [t] t.line ⟨t, rfl, hk, rfl⟩)
    rw [accept, h, if_pos rfl, hr]
    rfl

theorem acceptMeaning_bind {meaning : Kind → Option β} {f g : Option (β × Nat) → Reading α}
    (hn : 1 ≤ l + m)
    (known : ∀ b line, Covers Anywhere more fuel (c + 24) (l - 1) m (f (some (b, line)))
      (g (some (b, line))) fun a ts =>
        ∀ us kind, meaning kind = some b → Took kind line us → Q a (us ++ ts))
    (unknown : Covers Anywhere more fuel c l m (f none) (g none) Q) :
    Covers Anywhere more fuel c l m (acceptMeaning meaning >>= f) (acceptMeaning meaning >>= g)
      Q := by
  intro r _
  cases hr : r.rest with
  | nil =>
    refine look_bind (by rw [acceptMeaning, hr]) hn (fun left => ?_) (unknown r trivial)
    rw [hr, List.length_nil] at left
    omega
  | cons t rest =>
    cases hm : meaning t.kind with
    | none =>
      refine look_bind (by simp only [acceptMeaning, hr, hm]) hn (fun _ => ?_) (unknown r trivial)
      rw [hr]
      exact .acceptMeaning_none (.cons hm)
    | some b =>
      refine take_bind hr (by simp only [acceptMeaning, hr, hm]) (.acceptMeaning_some hm)
        ((known b t.line).mono (by omega) fun a ts hq => hq [t] t.kind hm ⟨t, rfl, rfl, rfl⟩)

/-- A reading that takes one token or stops in front of it. -/
theorem taking {z : Reading β} {S : β → List Token → Prop} {r : Reader} {b : β} {rest : List Token}
    (hr : r.rest = t :: rest) (hz : z r = .ok b { r with rest := rest })
    (again : Takes r.loops z (t :: (rest ++ more)) b (rest ++ more)) (hq : S b [t]) :
    Covered more fuel c 1 0 z S r (z r) := by
  rw [hz]
  refine .ok [t] hr (Nat.le_refl 1) (List.prefix_refl _) rfl (fun _ => hq) fun _ _ => ?_
  rw [hr]
  exact again

theorem stopping {z : Reading β} {S : β → List Token → Prop} {r : Reader} (missing : Missing)
    (hz : z r = Grammar.stop missing r) : Covered more fuel c l m z S r (z r) := by
  rw [hz]
  exact .complaint (List.suffix_refl _) (List.prefix_refl _) rfl

theorem expect {s : Symbol} {landmark : Landmark} :
    Covers P more fuel 0 1 0 (Grammar.expect s landmark) (Grammar.expect s landmark)
      fun line ts => Took (.symbol s) line ts := by
  intro r _
  cases hr : r.rest with
  | nil => exact stopping _ (by rw [Grammar.expect, hr])
  | cons t rest =>
    by_cases hk : t.kind = .symbol s
    · refine taking hr (by simp only [Grammar.expect, hr, hk, if_true]) ?_ ⟨t, rfl, hk, rfl⟩
      intro endLine reports
      simp only [Grammar.expect, hk, if_true]
      rfl
    · exact stopping (.symbol s landmark) (by simp only [Grammar.expect, hr, if_neg hk])

theorem expectName {missing : Missing} :
    Covers P more fuel 0 1 0 (Grammar.expectName missing) (Grammar.expectName missing)
      fun name ts => ∃ t, ts = [t] ∧ t.kind = .name ∧ name = ⟨t.lexeme, t.line⟩ := by
  intro r _
  cases hr : r.rest with
  | nil => exact stopping _ (by rw [Grammar.expectName, hr])
  | cons t rest =>
    by_cases hk : t.kind = .name
    · refine taking hr (by simp only [Grammar.expectName, hr, hk, if_true]) ?_ ⟨t, rfl, hk, rfl⟩
      intro endLine reports
      simp only [Grammar.expectName, hk, if_true]
      rfl
    · exact stopping missing (by simp only [Grammar.expectName, hr, if_neg hk])

theorem withLoops {change : Nat → Nat} (h : Covers P more fuel c l m x y Q) :
    Covers P more fuel c l m (Grammar.withLoops change x) (Grammar.withLoops change y) Q := by
  intro r hr
  have he := h { r with loops := change r.loops } hr
  simp only [Grammar.withLoops]
  generalize x _ = rx at he ⊢
  cases he with
  | complaint left kept loops => exact .complaint left kept rfl
  | exhausted short => exact .exhausted short
  | ok taken split many kept loops post again =>
    exact .ok taken split many kept rfl post fun clean ahead => .withLoops (again clean ahead)

theorem unlessAt {S : Option α → List Token → Prop} (h : Covers Anywhere more fuel c l 1 x y Q)
    (none : S none []) (some : ∀ a ts, Q a ts → S (some a) ts) :
    Covers Anywhere more fuel c 0 1 (Grammar.unlessAt kind x) (Grammar.unlessAt kind y) S := by
  refine at_bind (Nat.le_refl 1) (fun t _ => ?_) ?_
  · exact .pure none
  · exact (h.map some).bounds (by omega)

/-- Behind a complaint at least the next token is skipped. -/
theorem recovering (h : Covers Anywhere more fuel c l m x y Q) (hl : 1 ≤ l) :
    Covers (Before t) more fuel c 1 m (Grammar.recovering x) (Grammar.recovering y)
      fun found ts => ∃ a, found = some a ∧ Q a ts := by
  intro r ht
  obtain ⟨rest, hr⟩ := List.head?_eq_some_iff.mp ht
  have he := h r trivial
  simp only [Grammar.recovering]
  generalize x r = rx at he ⊢
  cases he with
  | exhausted short => exact .exhausted short
  | ok taken split many kept loops post again =>
    exact .ok taken split (Nat.le_trans hl many) kept loops (fun clean => ⟨_, rfl, post clean⟩)
      fun clean ahead => (again clean ahead).recovering
  | @complaint report s left kept loops =>
    have behind : resume s.rest <:+ rest := by
      refine (resume_suffix s.rest).trans ?_
      rw [hr] at left
      rcases List.suffix_cons_iff.mp left with whole | within
      · exact ⟨[], congrArg List.tail whole⟩
      · exact (List.tail_suffix _).trans within
    obtain ⟨skipped, hs⟩ := behind
    have dirty : s.reports ++ [report] ≠ r.reports := by
      intro clean
      have := kept.length_le
      simp only [← clean, List.length_append, List.length_singleton] at this
      omega
    exact .ok (t :: skipped) (by rw [hr, List.cons_append, hs]) (by simp)
      (kept.trans (List.prefix_append _ _)) loops (fun clean => absurd clean dirty)
      fun clean => absurd clean dirty

end Covers

end Script.Grammar
