import Script.Proofs.Grammar.Echoed
import Script.Proofs.Result

/-! How readings that are put together echo.
A reading behind another one echoes if both do. At tokens that begin alike a reading that looks at
the next token is one and the same of its branches. -/
namespace Script.Grammar

variable {α β : Type}

namespace Echoes

variable {P : List Token → Prop} {calm : Bool} {k l m : Nat} {mid behind : Option Kind → Prop}
  {x y z : Reading α} {kind : Kind}

theorem restrict {Q : List Token → Prop} (h : Echoes P calm k behind x)
    (hQ : ∀ tokens, Q tokens → P tokens) : Echoes Q calm k behind x :=
  fun r hr => h r (hQ _ hr)

theorem within (h : Echoes Anywhere calm k behind x) : Echoes P calm k behind x :=
  h.restrict fun _ _ => trivial

theorem mono {behind' : Option Kind → Prop} (h : Echoes P calm k behind x) (hk : l ≤ k)
    (hbehind : ∀ next, behind' next → behind next) : Echoes P calm l behind' x :=
  fun r hr => (h r hr).mono id hk hbehind

/-- What ends before anything ends before what may stand there. -/
theorem ends (h : Echoes P calm k anything x) : Echoes P calm k behind x :=
  h.mono (Nat.le_refl k) fun _ _ => trivial

theorem stirred (h : Echoes P calm k behind x) : Echoes P false k behind x :=
  fun r hr => (h r hr).mono nofun (Nat.le_refl k) fun _ => id

theorem exhaust : Echoes P calm k behind (Grammar.exhaust : Reading α) := fun _ _ => .exhausted

theorem pure {a : α} : Echoes P calm 0 behind (Pure.pure a) := by
  intro r _
  have ends : Echoed calm 0 behind (Pure.pure a) r
      (.ok a ⟨r.rest, r.endLine, r.reports ++ [], r.loops⟩) := by
    refine .ok [] r.rest [] rfl (Nat.le_refl 0) (fun _ _ => rfl) (fun _ _ _ _ _ => ?_)
      fun _ outer brace inside ht => by simp at ht
    rw [noting_nil]
    exact .refl
  rwa [List.append_nil] at ends

theorem stop {missing : Missing} : Echoes P calm k behind (Grammar.stop missing : Reading α) := by
  intro r _
  have ends : Echoed calm k behind (Grammar.stop missing) r (.error
      (.complaint (Reader.report ⟨r.rest, r.endLine, [], 0⟩ (.expected missing)))
      ⟨r.rest, r.endLine, r.reports ++ [], r.loops⟩ : EStateM.Result Stop Reader α) := by
    refine .complaint [] r.rest [] missing rfl (fun _ _ => rfl) fun _ terminated loops _ more => ?_
    intro endLine reports
    have same : (r.rest ++ more).head? = r.rest.head? :=
      List.head?_append_of_ne_nil _ terminated.ne_nil
    have some : r.rest ++ more ≠ [] := List.append_ne_nil_of_left_ne_nil terminated.ne_nil more
    rw [Grammar.stop, stopping, List.append_nil, report_of_head? same some]
    rfl
  rwa [List.append_nil] at ends

theorem refuses (missing : Missing) {r : Reader} (hk : 1 ≤ k)
    (h : ∀ s, s.rest.head? = r.rest.head? → x s = Grammar.stop missing s) :
    Echoed calm k behind x r (x r) := by
  have stopped : Echoes Anywhere calm k behind (Grammar.stop missing : Reading α) := stop
  rw [h r rfl]
  exact (stopped r trivial).agree fun s hs => h s (hs.resolve_right (by omega))

theorem bind {f : α → Reading β} (h : Echoes P calm k mid x)
    (hf : ∀ a, Echoes Anywhere calm l behind (f a)) (hb : m ≤ k + l)
    (through : 1 ≤ l ∨ ∀ next, behind next → mid next) :
    Echoes P calm m behind (x >>= f) := by
  intro r hr
  have he := h r hr
  generalize hx : x r = result at he
  simp only [Bind.bind, EStateM.bind, hx]
  refine Echoed.mono (l := m) ?_ id hb fun _ => id
  cases he with
  | exhausted => exact .exhausted
  | ok taken rest added split many quiet again enters =>
    exact .after split many quiet again enters (hf _ _ trivial) through
  | complaint taken rest added missing split quiet again =>
    exact .complaint taken rest added missing split quiet fun none terminated loops hl more =>
      (again none terminated loops hl more).stopped_first

/-- What ends before anything, and another reading behind it. -/
theorem followed {f : α → Reading β} (h : Echoes P calm k anything x)
    (hf : ∀ a, Echoes Anywhere calm l behind (f a)) (hb : m ≤ k + l) :
    Echoes P calm m behind (x >>= f) := h.bind hf hb (.inr fun _ _ => trivial)

theorem map {f : α → β} (h : Echoes P calm k behind x) : Echoes P calm k behind (f <$> x) :=
  h.bind (fun _ => pure) (Nat.le_refl k) (.inr fun _ => id)

theorem note {report : Report} (hn : report.isStop = false) (h : Echoes Anywhere calm k behind x) :
    Echoes P calm k behind (Grammar.note report >>= fun _ => x) :=
  fun _ _ => (h _ trivial).noted hn fun _ _ => rfl

theorem noteHere {complaint : Complaint} (hc : ∀ missing, complaint ≠ .expected missing)
    (h : Echoes Anywhere calm k behind x) (hk : 1 ≤ k) :
    Echoes P calm k behind (Grammar.noteHere complaint >>= fun _ => x) := by
  intro r _
  refine (h _ trivial).noted (report_isNote hc r) fun s hs => ?_
  rw [Grammar.noteHere, report_of_head? (hs hk).1 (hs hk).2]

theorem ite {c : Prop} [Decidable c] (h : Echoes P calm k behind x)
    (h' : Echoes P calm k behind y) : Echoes P calm k behind (if c then x else y) := by
  split
  · exact h
  · exact h'

theorem withLoops {change : Nat → Nat} (h : Echoes P calm k behind x) :
    Echoes P calm k behind (Grammar.withLoops change x) := by
  intro r hr
  have he := h { r with loops := change r.loops } hr
  simp only [Grammar.withLoops]
  generalize x _ = result at he ⊢
  cases he with
  | exhausted => exact .exhausted
  | ok taken rest added split many quiet again enters =>
    refine .ok taken rest added split many quiet (fun none loops hl tail htail => ?_)
      fun clean outer brace inside ht opening =>
        (enters clean outer brace inside ht opening).withLoops
    intro endLine reports
    have leads := again none (change loops) (hl.imp (congrArg change) id) tail htail
    simp only [Grammar.withLoops, leads endLine reports, noting]
  | complaint taken rest added missing split quiet again =>
    refine .complaint taken rest added missing split quiet fun none terminated loops hl more => ?_
    intro endLine reports
    have leads := again none terminated (change loops) (hl.imp (congrArg change) id) more
    simp only [Grammar.withLoops, leads endLine reports, stopping]

/-- What is skipped behind a complaint is not read, so only readings that end with a result say
something. -/
theorem recovering (h : Echoes P calm k behind x) :
    Echoes P false 0 behind (Grammar.recovering x) := by
  intro r hr
  have he := h r hr
  simp only [Grammar.recovering]
  generalize x r = result at he ⊢
  cases he with
  | exhausted => exact .exhausted
  | ok taken rest added split many quiet again enters =>
    refine .ok taken rest added split (Nat.zero_le _) (fun calm => absurd calm Bool.false_ne_true)
      (fun none loops hl tail htail => ?_) fun clean outer brace inside ht opening =>
        (enters clean outer brace inside ht opening).recovering
    intro endLine reports
    have leads := again none loops hl tail htail
    simp only [Grammar.recovering, leads endLine reports, noting]
  | complaint taken rest added missing split quiet again =>
    obtain ⟨skipped, hs⟩ := (resume_suffix rest).trans (List.tail_suffix rest)
    simp only [List.append_assoc]
    refine .ok (taken ++ skipped) (resume rest) _ ?_ (Nat.zero_le _)
      (fun calm => absurd calm Bool.false_ne_true) (fun none => ?_) fun none => ?_
    · rw [split, List.append_assoc, hs]
    · rw [stops_append, stops_one (report_isStop _ missing)] at none
      simp at none
    · simp at none

theorem agree (h : ∀ tokens, P tokens → ∃ y l, k ≤ l ∧ Echoes (· = tokens) calm l behind y ∧
      ∀ s, s.rest.head? = tokens.head? ∨ l = 0 ∧ behind (ahead s.rest) → x s = y s) :
    Echoes P calm k behind x := by
  intro r hr
  obtain ⟨y, l, hk, hy, same⟩ := h _ hr
  rw [same r (.inl rfl)]
  exact ((hy r rfl).agree same).mono id hk fun _ => id

theorem choose (C : Option Kind → Prop)
    (yes : Echoes (fun tokens => C (ahead tokens)) calm m behind y)
    (no : Echoes (fun tokens => ¬ C (ahead tokens)) calm l behind z) (hb : k ≤ m ∧ k ≤ l)
    (goes : ∀ s, C (ahead s.rest) → x s = y s) (stays : ∀ s, ¬ C (ahead s.rest) → x s = z s)
    (hm : 1 ≤ m ∨ ∀ next, behind next → C next) (hl : 1 ≤ l ∨ ∀ next, behind next → ¬ C next) :
    Echoes Anywhere calm k behind x := by
  refine agree fun tokens _ => ?_
  by_cases h : C (ahead tokens)
  · refine ⟨y, m, hb.1, yes.restrict (by rintro _ rfl; exact h), fun s hs => goes s ?_⟩
    rcases hs with same | ⟨none, next⟩
    · rwa [ahead_of_head? same]
    · exact hm.resolve_left (by omega) _ next
  · refine ⟨z, l, hb.2, no.restrict (by rintro _ rfl; exact h), fun s hs => stays s ?_⟩
    rcases hs with same | ⟨none, next⟩
    · rwa [ahead_of_head? same]
    · exact hl.resolve_left (by omega) _ next

theorem advance_bind {f : Unit → Reading α} (h : Echoes Anywhere calm l behind (f ()))
    (hb : k ≤ 1 + l) (hP : ∀ tokens, P tokens → ∃ t ∈ tokens.head?, t.kind ≠ .symbol .leftBrace) :
    Echoes P calm k behind (advance >>= f) := by
  intro r hr
  obtain ⟨t, ht, hk⟩ := hP _ hr
  obtain ⟨rest, hs⟩ := List.head?_eq_some_iff.mp ht
  have he := h { r with rest := rest } trivial
  have hx : (advance >>= f) r = f () { r with rest := rest } := by
    simp only [Bind.bind, EStateM.bind, advance, hs, List.tail_cons]
  rw [hx]
  refine (he.led [t] hs (fun _ _ _ _ => Leads.advance.bind .refl) (fun hc _ => hc) ?_).mono
    id hb fun _ => id
  intro outer brace inside hf opening
  exact absurd (braceless_one hk) (opening.not_braceless hf)

theorem head_of_ahead {tokens : List Token} (h : ahead tokens = some kind)
    (hk : kind ≠ .symbol .leftBrace) : ∃ t ∈ tokens.head?, t.kind ≠ .symbol .leftBrace := by
  obtain ⟨t, rest, rfl, rfl⟩ := exists_cons_of_ahead h
  exact ⟨t, rfl, hk⟩

theorem accept_bind {f : Bool → Reading α} (yes : Echoes Anywhere calm m behind (f true))
    (no : Echoes Anywhere calm l behind (f false)) (hb : k ≤ 1 + m ∧ k ≤ l)
    (hl : 1 ≤ l ∨ ∀ next, behind next → next ≠ some kind) (hk : kind ≠ .symbol .leftBrace) :
    Echoes Anywhere calm k behind (accept kind >>= f) := by
  refine choose (y := advance >>= fun _ => f true) (z := f false) (m := 1 + m) (· = some kind)
    (advance_bind yes (Nat.le_refl _) fun _ h => head_of_ahead h hk) no.within hb (fun s h => ?_)
    (fun s h => ?_) (.inl (by omega)) hl
  · simp only [Bind.bind, EStateM.bind, accept, if_pos (leads_iff.mpr h)]
    rfl
  · simp only [Bind.bind, EStateM.bind, accept, if_neg (mt leads_iff.mp h)]

theorem acceptMeaning_bind {meaning : Kind → Option β} {f : Option (β × Nat) → Reading α}
    (known : ∀ b line, Echoes Anywhere calm m behind (f (some (b, line))))
    (unknown : Echoes Anywhere calm l behind (f none)) (hb : k ≤ 1 + m ∧ k ≤ l)
    (hl : 1 ≤ l ∨ ∀ next, behind next → ∀ kind ∈ next, meaning kind = none)
    (hm : meaning (.symbol .leftBrace) = none) :
    Echoes Anywhere calm k behind (acceptMeaning meaning >>= f) := by
  have unmet (s : Reader) (h : ∀ kind ∈ ahead s.rest, meaning kind = none) :
      (acceptMeaning meaning >>= f) s = f none s := by
    simp only [Bind.bind, EStateM.bind, acceptMeaning]
    cases hr : s.rest with
    | nil => rfl
    | cons t rest =>
      rw [hr] at h
      simp only [h t.kind rfl]
  refine agree fun tokens _ => ?_
  by_cases h : ∀ kind ∈ ahead tokens, meaning kind = none
  · refine ⟨_, l, hb.2, unknown.within, fun s hs => unmet s ?_⟩
    rcases hs with same | ⟨none, next⟩
    · rwa [ahead_of_head? same]
    · exact hl.resolve_left (by omega) _ next
  · cases tokens with
    | nil => exact absurd (fun kind hk => by cases hk) h
    | cons t rest =>
      obtain ⟨b, hb'⟩ : ∃ b, meaning t.kind = some b := by
        refine Option.ne_none_iff_exists'.mp fun none => h ?_
        rintro _ ⟨⟩
        exact none
      refine ⟨advance >>= fun _ => f (some (b, t.line)), 1 + m, hb.1,
        advance_bind (known b t.line) (Nat.le_refl _) ?_, fun s hs => ?_⟩
      · rintro _ rfl
        refine ⟨t, rfl, fun hk => ?_⟩
        rw [hk, hm] at hb'
        cases hb'
      · have same : s.rest.head? = some t := hs.resolve_right (by omega)
        obtain ⟨rest', hr⟩ := List.head?_eq_some_iff.mp same
        simp only [Bind.bind, EStateM.bind, acceptMeaning, advance, hr, hb', List.tail_cons]

theorem at_bind {f : Bool → Reading α}
    (yes : Echoes (ahead · = some kind) calm k behind (f true))
    (no : Echoes Anywhere calm k behind (f false)) (hk : 1 ≤ k) :
    Echoes Anywhere calm k behind (at_ kind >>= f) := by
  refine choose (y := f true) (z := f false) (· = some kind) yes no.within
    ⟨Nat.le_refl k, Nat.le_refl k⟩ (fun s h => ?_) (fun s h => ?_) (.inl hk) (.inl hk)
  · simp only [Bind.bind, EStateM.bind, at_, leads_iff.mpr h]
  · simp only [Bind.bind, EStateM.bind, at_, eq_false_of_ne_true (mt leads_iff.mp h)]

theorem peek_bind {f : Option Token → Reading α}
    (h : ∀ tokens, Echoes (· = tokens) calm k behind (f tokens.head?)) (hk : 1 ≤ k) :
    Echoes Anywhere calm k behind (peek >>= f) := by
  refine agree fun tokens _ => ⟨_, k, Nat.le_refl k, h tokens, fun s hs => ?_⟩
  rw [← hs.resolve_right (by omega)]
  rfl

theorem atEnd_bind {f : Bool → Reading α} (yes : Echoes Anywhere calm m behind (f true))
    (no : Echoes Anywhere calm l behind (f false)) (hb : k ≤ m ∧ k ≤ l)
    (never : ∀ next, ¬ behind next) : Echoes Anywhere calm k behind (atEnd >>= f) := by
  refine choose (y := f true) (z := f false) (· = none) yes.within no.within hb (fun s h => ?_)
    (fun s h => ?_) (.inr fun next h => absurd h (never next))
    (.inr fun next h => absurd h (never next))
  · simp only [Bind.bind, EStateM.bind, atEnd, isEmpty_iff.mpr h]
  · simp only [Bind.bind, EStateM.bind, atEnd, eq_false_of_ne_true (mt isEmpty_iff.mp h)]

theorem ends_bind (yes : Echoes Anywhere calm m behind y) (no : Echoes Anywhere calm l behind z)
    (hb : k ≤ m ∧ k ≤ l) (hm : 1 ≤ m ∧ 1 ≤ l ∨ ∀ next, ¬ behind next) :
    Echoes Anywhere calm k behind (atEnd >>= fun ended => at_ kind >>= fun closed =>
      if (ended || closed) = true then y else z) := by
  have looks (s : Reader) : (atEnd >>= fun ended => at_ kind >>= fun closed =>
      if (ended || closed) = true then y else z) s =
        if (s.rest.isEmpty || s.leads kind) = true then y s else z s := by
    simp only [Bind.bind, EStateM.bind, atEnd, at_]
    split <;> rfl
  have meets (s : Reader) : (s.rest.isEmpty || s.leads kind) = true ↔
      ahead s.rest = none ∨ ahead s.rest = some kind := by
    rw [Bool.or_eq_true, leads_iff, isEmpty_iff]
  refine choose (fun next => next = none ∨ next = some kind) yes.within no.within hb
    (fun s h => ?_) (fun s h => ?_) (hm.imp And.left fun never next h => absurd h (never next))
    (hm.imp And.right fun never next h => absurd h (never next))
  · rw [looks, if_pos ((meets s).mpr h)]
  · rw [looks, if_neg (mt (meets s).mp h)]

theorem unlessAt (h : Echoes Anywhere calm k nothing x) :
    Echoes P calm 0 nothing (Grammar.unlessAt kind x) := by
  refine within (choose (y := Pure.pure none) (z := some <$> x) (l := k) (· = some kind) pure
    h.map.within ⟨Nat.le_refl 0, Nat.zero_le k⟩ (fun _ => unlessAt_at) (fun _ => unlessAt_other)
    (.inr fun _ => False.elim) (.inr fun _ => False.elim))

theorem taking {missing : Missing} {b : Token → α} (hk : kind ≠ .symbol .leftBrace)
    (takes : ∀ loops t rest, t.kind = kind → Takes loops x (t :: rest) (b t) rest)
    (refuses : ∀ r, ahead r.rest ≠ some kind → x r = Grammar.stop missing r) :
    Echoes P calm 1 behind x := by
  refine within (agree fun tokens _ => ?_)
  by_cases h : ahead tokens = some kind
  · obtain ⟨t, rest, rfl, ht⟩ := exists_cons_of_ahead h
    refine ⟨advance >>= fun _ => Pure.pure (b t), 1, Nat.le_refl 1,
      advance_bind pure (Nat.le_refl 1) ?_, fun s hs => ?_⟩
    · rintro _ rfl
      exact ⟨t, rfl, ht ▸ hk⟩
    · obtain ⟨rest', hr⟩ := List.head?_eq_some_iff.mp (hs.resolve_right (by omega))
      obtain ⟨_, endLine, reports, loops⟩ := s
      cases hr
      exact takes loops t rest' ht endLine reports
  · refine ⟨Grammar.stop missing, 1, Nat.le_refl 1, stop, fun s hs => refuses s ?_⟩
    rwa [ahead_of_head? (hs.resolve_right (by omega))]

theorem expect {s : Symbol} {landmark : Landmark} (hs : s ≠ .leftBrace) :
    Echoes P calm 1 anything (Grammar.expect s landmark) :=
  taking (b := Token.line) (fun h => hs (Kind.symbol.inj h)) (fun _ _ _ => expect_takes)
    fun _ => expect_stops

theorem expectName {missing : Missing} : Echoes P calm 1 anything (Grammar.expectName missing) :=
  taking (b := fun t => ⟨t.lexeme, t.line⟩) (show Kind.name ≠ .symbol .leftBrace from nofun)
    (fun _ _ _ => expectName_takes) fun _ => expectName_stops

theorem reports {r s : Reader} {a : α} (h : Echoes Anywhere calm k behind x) (hx : x r = .ok a s) :
    r.reports <+: s.reports := by
  have he := h r trivial
  rw [hx] at he
  cases he with
  | ok taken rest added => exact List.prefix_append _ _

/-- What ends without a complaint takes the same tokens before others. -/
theorem takes {r s : Reader} {a : α} (h : Echoes Anywhere calm k behind x) (hx : x r = .ok a s)
    (clean : s.reports = r.reports) : ∃ taken, r.rest = taken ++ s.rest ∧
      ∀ tail, tail.head? = s.rest.head? ∨ behind (ahead tail) →
        Takes r.loops x (taken ++ tail) a tail := by
  have he := h r trivial
  rw [hx] at he
  cases he with
  | ok taken rest added split many quiet again =>
    obtain rfl : added = [] := List.append_right_eq_self.mp clean
    refine ⟨taken, split, fun tail next => ?_⟩
    have leads := again rfl r.loops (.inl rfl) tail next
    rwa [noting_nil] at leads

/-- What one reading behind another takes is taken by the one and by the other. -/
theorem bind_takes {c : Bool} {n : Nat} {f : α → Reading β} {b : β} {loops : Nat}
    {tokens rest : List Token} (hx : Echoes Anywhere calm k mid x)
    (hf : ∀ a, Echoes Anywhere c n behind (f a)) (h : Takes loops (x >>= f) tokens b rest) :
    ∃ a taken middle, tokens = taken ++ middle ∧ Takes loops (f a) middle b rest ∧
      ∀ tail, tail.head? = middle.head? ∨ mid (ahead tail) →
        Takes loops x (taken ++ tail) a tail := by
  obtain ⟨a, s, first, second⟩ := bind_ok (h 0 [])
  -- no complaint is left at the end, so none was made on the way
  have clean : s.reports = [] := List.prefix_nil.mp ((hf a).reports second)
  obtain ⟨taken, split, leads⟩ := hx.takes first clean
  obtain ⟨middle, endLine, reports, loops'⟩ := s
  have same := leads middle (.inl rfl) 0 []
  rw [← show tokens = taken ++ middle from split] at same
  cases first.symm.trans same
  obtain ⟨taken', split', leads'⟩ := (hf a).takes second rfl
  refine ⟨a, taken, middle, split, ?_, leads⟩
  rw [show middle = taken' ++ rest from split']
  exact leads' rest (.inl rfl)

theorem map_takes {g : α → β} {b : β} {loops : Nat} {tokens rest : List Token}
    (hx : Echoes Anywhere calm k behind x) (h : Takes loops (g <$> x) tokens b rest) :
    ∃ a, b = g a ∧ Takes loops x tokens a rest := by
  have ends (a : α) : Echoes Anywhere true 0 nothing (Pure.pure (g a) : Reading β) := pure
  obtain ⟨a, taken, middle, split, last, first⟩ := hx.bind_takes ends h
  cases last 0 []
  exact ⟨a, rfl, split ▸ first rest (.inl rfl)⟩

/-- What takes all the tokens without a complaint goes into every block among them. -/
theorem enters {r s : Reader} {a : α} {outer inside : List Token} {brace : Token}
    (h : Echoes Anywhere calm k behind x) (hx : x r = .ok a s) (clean : s.reports = r.reports)
    (all : s.rest = []) (split : r.rest = outer ++ brace :: inside) (opens : Opening outer brace) :
    Enters r.loops x (outer ++ [brace]) inside := by
  have he := h r trivial
  rw [hx] at he
  cases he with
  | ok taken rest added whole many quiet again enters =>
    obtain rfl : added = [] := List.append_right_eq_self.mp clean
    obtain rfl : rest = [] := all
    rw [List.append_nil] at whole
    have enters := enters rfl outer brace inside (whole.symm.trans split) opens
    rwa [List.append_nil] at enters

theorem blockBody_begins {fuel : Nat} (h : Echoes Anywhere false k behind (blockBody fuel)) :
    BeginsBody (blockBody fuel) := by
  intro r a s hx clean
  obtain ⟨taken, split, takes⟩ := h.takes hx clean
  rw [split]
  exact .body (takes s.rest (.inl rfl))

/-- Takes the brace of a block and goes into its body. -/
theorem opening_bind {f : Unit → Reading α} (h : Echoes Anywhere false l behind (f ()))
    (begins : BeginsBody (f ())) (hb : k ≤ 1 + l) :
    Echoes (ahead · = some (.symbol .leftBrace)) calm k behind (advance >>= f) := by
  intro r hr
  obtain ⟨t, rest, hs, hk⟩ := exists_cons_of_ahead hr
  have he := h { r with rest := rest } trivial
  have hx : (advance >>= f) r = f () { r with rest := rest } := by
    simp only [Bind.bind, EStateM.bind, advance, hs, List.tail_cons]
  rw [hx]
  refine (he.led [t] hs (fun _ _ _ _ => Leads.advance.bind .refl)
    (fun _ none => absurd hk (none t (List.mem_singleton.mpr rfl))) ?_).mono id hb fun _ => id
  intro outer brace inside hf opening a s ends clean
  obtain ⟨rfl, rfl, rfl⟩ : outer = [] ∧ brace = t ∧ inside = [] := by
    cases outer with
    | nil =>
      obtain ⟨rfl, rfl⟩ := List.cons.inj hf
      exact ⟨rfl, rfl, rfl⟩
    | cons u outer => simp at hf
  exact (begins _ a s ends clean).led [brace] fun tail => Leads.advance.bind .refl

theorem expect_opening {landmark : Landmark} (h : Echoes Anywhere false l behind x)
    (begins : BeginsBody x) (hb : k ≤ 1 + l) :
    Echoes Anywhere calm k behind (Grammar.expect .leftBrace landmark >>= fun _ => x) := by
  have stopped : Echoes (¬ ahead · = some (.symbol .leftBrace)) calm (1 + l) behind
      (Grammar.stop (.symbol .leftBrace landmark) : Reading α) := stop
  refine choose (· = some (.symbol .leftBrace))
    (opening_bind (f := fun _ => x) h begins (Nat.le_refl _)) stopped ⟨hb, hb⟩ (fun s hs => ?_)
    (fun s hs => ?_) (.inl (by omega)) (.inl (by omega))
  · obtain ⟨t, rest, hr, hk⟩ := exists_cons_of_ahead hs
    simp only [Bind.bind, EStateM.bind, Grammar.expect, advance, hr, hk, if_true, List.tail_cons]
  · simp only [Bind.bind, EStateM.bind, expect_stops hs]
    rfl

theorem className_bind {missing : Missing} {landmark : Landmark} {f : Name → Reading α}
    (h : ∀ name, Echoes Anywhere false l behind (f name)) (hb : k ≤ 2 + l) :
    Echoes P calm k behind (Grammar.expectName missing >>= fun name =>
      Grammar.expect .leftBrace landmark >>= fun _ => f name) := by
  intro r _
  refine Echoed.mono (l := k) (k := 2 + l) ?_ id hb fun _ => id
  by_cases hn : ahead r.rest = some .name
  · obtain ⟨t, rest, hr, ht⟩ := exists_cons_of_ahead hn
    let opening : Reading α := Grammar.expect .leftBrace landmark >>= fun _ => f ⟨t.lexeme, t.line⟩
    have named (loops : Nat) (tail : List Token) : Leads loops
        (Grammar.expectName missing >>= fun name =>
          Grammar.expect .leftBrace landmark >>= fun _ => f name) (t :: tail) tail opening :=
      (expectName_takes ht).bind .refl
    obtain ⟨_, endLine, reports, loops⟩ := r
    cases hr
    rw [named]
    by_cases hb : ahead rest = some (.symbol .leftBrace)
    · obtain ⟨u, rest, rfl, hu⟩ := exists_cons_of_ahead hb
      have opened (loops : Nat) (tail : List Token) :
          Leads loops opening (u :: tail) tail (f ⟨t.lexeme, t.line⟩) :=
        (expect_takes hu).bind .refl
      rw [opened]
      refine (h _ _ trivial).led [t, u] rfl
        (fun loops _ tail _ => (named loops (u :: tail)).trans (opened loops tail))
        (fun _ none => absurd hu (none u (by simp))) ?_
      intro outer brace inside hf opens
      rcases outer with _ | ⟨v, _ | ⟨w, outer⟩⟩
      · obtain ⟨rfl, -⟩ := List.cons.inj hf
        exact absurd (ht.symm.trans opens.kind) nofun
      · obtain ⟨rfl, -⟩ := List.cons.inj hf
        exact absurd ht (opens.behind t rfl)
      · simp at hf
    · have stopped : Echoed calm (1 + l) behind opening ⟨rest, endLine, reports, loops⟩
          (opening ⟨rest, endLine, reports, loops⟩) := by
        refine refuses (.symbol .leftBrace landmark) (by omega) fun s hs => ?_
        rw [← ahead_of_head? hs] at hb
        simp only [opening, Bind.bind, EStateM.bind, expect_stops hb]
        rfl
      refine (stopped.led [t] rfl (fun loops _ tail _ => named loops tail) (fun hc _ => hc) ?_).mono
        id (by rw [List.length_singleton]; omega) fun _ => id
      intro outer brace inside hf opens
      exact absurd (braceless_one (by rw [ht]; nofun)) (opens.not_braceless hf)
  · refine refuses missing (by omega) fun s hs => ?_
    rw [← ahead_of_head? hs] at hn
    simp only [Bind.bind, EStateM.bind, expectName_stops hn]
    rfl

end Echoes

theorem BeginsBody.withLoops {change : Nat → Nat} {x : Reading α} (h : BeginsBody x) :
    BeginsBody (withLoops change x) := by
  intro r a s hx clean
  refine Enters.withLoops ?_
  simp only [Grammar.withLoops] at hx
  cases hi : x { r with loops := change r.loops } with
  | error e s' =>
    rw [hi] at hx
    cases hx
  | ok b s' =>
    rw [hi] at hx
    cases hx
    exact h _ _ _ hi clean

/-- What follows takes no complaint back. -/
theorem BeginsBody.bind {calm : Bool} {k l : Nat} {mid behind : Option Kind → Prop} {x : Reading α}
    {f : α → Reading β} (h : BeginsBody x) (hx : Echoes Anywhere calm k mid x)
    (hf : ∀ a, Echoes Anywhere calm l behind (f a)) : BeginsBody (x >>= f) := by
  intro r b s hb clean
  simp only [Bind.bind, EStateM.bind] at hb
  cases ha : x r with
  | error e s' =>
    rw [ha] at hb
    cases hb
  | ok a s' =>
    rw [ha] at hb
    have same := reports_between (hx.reports ha) ((hf a).reports hb) clean
    exact (h r a s' ha same.1).bind f

end Script.Grammar
