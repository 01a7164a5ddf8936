import Script.Proofs.Grammar.Mending

/-! How readings that are put together end.
One reading behind another is stopped where its parts are. -/
namespace Script.Grammar

variable {α β : Type}

namespace Judged

variable {first first' : Kind → Prop} {k l : Nat} {mid behind : Option Kind → Prop}
  {x y : Nat → Reading α} {r s : Reader} {result : EStateM.Result Stop Reader α}

theorem agree (h : Judged first k behind y r result)
    (same : ∀ m s, s.rest.head? = r.rest.head? ∨ k = 0 ∧ behind (ahead s.rest) → x m s = y m s) :
    Judged first k behind x r result := by
  cases h with
  | exhausted => exact .exhausted
  | passed taken split many endLine quiet again =>
    refine .passed taken split many endLine quiet fun tail htail => (again tail htail).agree ?_
    intro m s hs
    refine same m s ?_
    rw [hs, split]
    by_cases none : taken = []
    · subst none
      exact htail.imp id fun h => ⟨Nat.le_zero.mp many, h⟩
    · exact .inl (head?_append_of (.inl none))
  | stopped taken later split here enters balks mends =>
    refine .stopped taken later split here enters (fun later' next => (balks later' next).agree ?_)
      fun some => ?_
    · intro m s hs
      exact same m s (.inl (by rw [hs, split]; exact head?_append_of (.inr next)))
    · obtain ⟨fix, a, mends⟩ := mends some
      refine ⟨fix, a, fun tail htail => (mends tail htail).agree fun m s hs => ?_⟩
      exact same m s (.inl (by rw [hs, split]; exact head?_append_of (.inl some)))

/-- A reading that passes one token, when it sees what comes next, and is another one then. That
one does not stop where it stands. -/
theorem led {t u : Token} {rest : List Token}
    (h : Judged first' k behind y { r with rest := rest } result) (hr : r.rest = t :: rest)
    (hu : u ∈ rest.head?) (opens : first' u.kind) (hk : 1 ≤ k)
    (leads : ∀ tail, tail.head? = rest.head? →
      ∀ m loops, Leads loops (x m) (t :: tail) tail (y m)) :
    Judged first (k + 1) behind x r result := by
  cases h with
  | exhausted => exact .exhausted
  | @passed a s taken split many endLine quiet again =>
    replace split : rest = taken ++ s.rest := split
    have some : taken ≠ [] := List.ne_nil_of_length_pos (Nat.lt_of_lt_of_le hk many)
    refine .passed (t :: taken) (by rw [hr, split, List.cons_append]) (Nat.succ_le_succ many)
      endLine quiet fun tail htail => (again tail htail).led (leads _ ?_)
    exact split ▸ head?_append_of (.inl some)
  | stopped taken later split here enters balks mends =>
    replace split : rest = taken ++ later := split
    have some : taken ≠ [] := fun none => enters none u hu opens
    refine .stopped (t :: taken) later (by rw [hr, split, List.cons_append]) here
      (fun none => absurd none (List.cons_ne_nil t taken)) (fun later' next =>
        (balks later' next).led (leads _ ?_)) fun _ => ?_
    · exact split ▸ head?_append_of (.inl some)
    · obtain ⟨fix, a, mends⟩ := mends some
      refine ⟨fix, a, fun tail htail => (mends tail htail).led (leads _ ?_)⟩
      exact split ▸ head?_append_of (.inl some)

theorem mono {k' : Nat} {behind' : Option Kind → Prop} (h : Judged first k behind x r result)
    (hfirst : ∀ kind, first' kind → first kind) (hk : k' ≤ k)
    (hbehind : ∀ kind, behind' kind → behind kind) : Judged first' k' behind' x r result := by
  cases h with
  | exhausted => exact .exhausted
  | passed taken split many endLine quiet again =>
    exact .passed taken split (hk.trans many) endLine quiet fun tail htail =>
      again tail (htail.imp id (hbehind _))
  | stopped taken later split here enters balks mends =>
    refine .stopped taken later split here (fun none t ht h => enters none t ht (hfirst _ h)) balks
      fun some => ?_
    obtain ⟨fix, a, mends⟩ := mends some
    exact ⟨fix, a, fun tail htail => mends tail (hbehind _ htail)⟩

/-- One reading behind another that was passed over. -/
theorem after {f : Nat → α → Reading β} {a : α} {taken : List Token}
    {result : EStateM.Result Stop Reader β} (split : r.rest = taken ++ s.rest)
    (many : k ≤ taken.length) (endLine : s.endLine = r.endLine)
    (quiet : stops s.reports = stops r.reports)
    (again : ∀ tail, tail.head? = s.rest.head? ∨ mid (ahead tail) →
      Passes x (taken ++ tail) a tail)
    (h : Judged never l behind (fun m => f m a) s result)
    (closable : Closable mid behind fun m => f m a)
    (through : 1 ≤ l ∨ ∀ kind, behind kind → mid kind)
    (enters : 1 ≤ k ∨ ∀ kind, ¬ first kind) :
    Judged first (k + l) behind (fun m => x m >>= f m) r result := by
  cases h with
  | exhausted => exact .exhausted
  | @passed b s' taken' split' many' endLine' quiet' again' =>
    refine .passed (taken ++ taken') ?_ ?_ (endLine'.trans endLine) (quiet'.trans quiet) ?_
    · rw [split, split', List.append_assoc]
    · rw [List.length_append]
      exact Nat.add_le_add many many'
    · intro tail htail
      rw [List.append_assoc]
      refine (again (taken' ++ tail) ?_).bind (again' tail htail)
      rw [split']
      by_cases none : taken' = []
      · subst none
        exact htail.imp id (through.resolve_left (Nat.not_lt.mpr many') _)
      · exact .inl (head?_append_of (.inl none))
  | stopped taken' later split' here enters' balks mends =>
    have meets (tail : List Token) (h : taken' ≠ [] ∨ tail.head? = later.head?) :
        (taken' ++ tail).head? = s.rest.head? := by
      rw [split']
      exact head?_append_of h
    refine .stopped (taken ++ taken') later ?_ (here.before quiet endLine) ?_ ?_ ?_
    · rw [split, split', List.append_assoc]
    · intro none t ht
      have none := (List.append_eq_nil_iff.mp none).1
      subst none
      exact enters.resolve_left (Nat.not_lt.mpr many) _
    · intro later' same
      rw [List.append_assoc]
      exact .behind (again _ (.inl (meets later' (.inr same)))) (balks later' same)
    · intro _
      by_cases none : taken' = []
      · subst none
        obtain ⟨fix, b, closes⟩ := closable
        refine ⟨fix, b, fun tail htail => ?_⟩
        rw [List.append_nil]
        obtain ⟨next, passes⟩ := closes tail htail
        exact (again _ (.inr next)).bind passes
      · obtain ⟨fix, b, mends⟩ := mends none
        refine ⟨fix, b, fun tail htail => ?_⟩
        rw [List.append_assoc]
        exact (again _ (.inl (meets _ (.inl none)))).bind (mends tail htail)

/-- What stopped the first reading stops the two, whether or not that one came to an end. -/
theorem broken {f : Nat → α → Reading β} {fuel : Nat} {taken later : List Token}
    (split : r.rest = taken ++ later) (here : StopsAt later r (x fuel r))
    (enters : taken = [] → ∀ t ∈ r.rest.head?, ¬ first t.kind)
    (balks : ∀ later', later'.head? = later.head? → Balks x (taken ++ later'))
    (mends : taken ≠ [] → ∃ fix a, ∀ tail, mid (ahead tail) →
      Passes x (taken ++ (fix ++ tail)) a tail)
    (steady : ∀ a m, Steady (f m a) (f (m + 1) a))
    (closable : ∀ a, Closable mid behind fun m => f m a) :
    Judged first k behind (fun m => x m >>= f m) r ((x fuel >>= f fuel) r) := by
  have stopped {result : EStateM.Result Stop Reader β} (here : StopsAt later r result) :
      Judged first k behind (fun m => x m >>= f m) r result := by
    refine .stopped taken later split here enters
      (fun later' same => (balks later' same).bind steady) fun some => ?_
    obtain ⟨fix, a, mends⟩ := mends some
    obtain ⟨fix', b, closes⟩ := closable a
    refine ⟨fix ++ fix', b, fun tail htail => ?_⟩
    obtain ⟨next, passes⟩ := closes tail htail
    have whole := (mends _ next).bind passes
    rwa [← List.append_assoc fix] at whole
  simp only [Bind.bind, EStateM.bind]
  cases hx : x fuel r with
  | error e s =>
    rw [hx] at here
    exact stopped here.error
  | ok a s =>
    rw [hx] at here
    have more := (steady a fuel).grows s
    simp only
    cases hf : f fuel a s with
    | ok b s' => exact stopped (here.bind (hf ▸ more) nofun)
    | error e s' =>
      cases e with
      | exhausted => exact .exhausted
      | complaint report => exact stopped (here.bind (hf ▸ more) nofun)

end Judged

theorem noteIf_same {c : Prop} [Decidable c] {z : Reading Unit} (hz : NotesOnly z)
    (x : Nat → Reading α) (m : Nat) (r : Reader) :
    ∃ noted, stops noted = stops r.reports ∧
      (if c then z >>= fun _ => x m else x m) r = x m { r with reports := noted } := by
  by_cases hc : c
  · obtain ⟨report, noted, hr⟩ := hz r
    refine ⟨r.reports ++ [report], stops_noted noted r.reports, ?_⟩
    simp only [if_pos hc, Bind.bind, EStateM.bind, hr]
  · exact ⟨r.reports, rfl, by rw [if_neg hc]⟩

namespace Closable

variable {front front' mid behind : Option Kind → Prop} {x y : Nat → Reading α} {kind : Kind}

theorem succ (h : Closable front behind fun m => x (m + 1)) : Closable front behind x := by
  obtain ⟨fix, a, closes⟩ := h
  exact ⟨fix, a, fun tail htail => (closes tail htail).imp id Passes.succ⟩

theorem weaken (h : Closable front behind x) (hf : ∀ next, front next → front' next) :
    Closable front' behind x := by
  obtain ⟨fix, a, closes⟩ := h
  exact ⟨fix, a, fun tail htail => (closes tail htail).imp (hf _) id⟩

theorem bind {f : Nat → α → Reading β} (h : Closable front mid x)
    (hf : ∀ a, Closable mid behind fun m => f m a) :
    Closable front behind fun m => x m >>= f m := by
  obtain ⟨fix, a, closes⟩ := h
  obtain ⟨fix', b, closes'⟩ := hf a
  refine ⟨fix ++ fix', b, fun tail htail => ?_⟩
  obtain ⟨next, passes⟩ := closes' tail htail
  obtain ⟨next', passes'⟩ := closes _ next
  rw [List.append_assoc]
  exact ⟨next', passes'.bind passes⟩

theorem pure {a : α} : Closable behind behind fun _ => Pure.pure a :=
  ⟨[], a, fun tail htail => ⟨htail, .pure a tail⟩⟩

theorem withLoops {change : Nat → Nat} (h : Closable front behind x) :
    Closable front behind fun m => Grammar.withLoops change (x m) := by
  obtain ⟨fix, a, closes⟩ := h
  exact ⟨fix, a, fun tail htail => (closes tail htail).imp id Passes.withLoops⟩

theorem noting (h : Closable front behind y)
    (same : ∀ m r, ∃ noted, stops noted = stops r.reports ∧
      x m r = y m { r with reports := noted }) : Closable front behind x := by
  obtain ⟨fix, a, closes⟩ := h
  exact ⟨fix, a, fun tail htail => (closes tail htail).imp id fun passes => passes.noting same⟩

theorem noteIf {c : Prop} [Decidable c] {z : Reading Unit} (hz : NotesOnly z)
    (h : Closable front behind x) :
    Closable front behind fun m => if c then z >>= fun _ => x m else x m :=
  h.noting (noteIf_same hz x)

theorem expect {s : Symbol} {landmark : Landmark} (hf : front (some (.symbol s))) :
    Closable front anything fun _ => Grammar.expect s landmark :=
  ⟨[symbol s], 0, fun _ _ => ⟨hf, .of_takes 0 fun _ _ _ => .expect⟩⟩

theorem expectName {missing : Missing} :
    Closable anything behind fun _ => Grammar.expectName missing :=
  ⟨[nameToken ⟨"a", 0⟩], _, fun _ _ => ⟨trivial, .of_takes 0 fun _ _ _ => .expectName⟩⟩

theorem unlessAt : Closable anything (· = some kind) fun m => Grammar.unlessAt kind (x m) := by
  refine ⟨[], none, fun tail htail => ⟨trivial, ?_⟩⟩
  cases tail with
  | nil => cases htail
  | cons t rest => exact .of_takes 0 fun _ _ _ => .unlessAt_yes (Option.some_inj.mp htail)

/-- The token that would be taken is left out. -/
theorem accept_bind {f : Nat → Bool → Reading α} (no : Closable front behind fun m => f m false)
    (hf : ∀ next, front next → next ≠ some kind) :
    Closable front behind fun m => Grammar.accept kind >>= f m := by
  obtain ⟨fix, a, closes⟩ := no
  refine ⟨fix, a, fun tail htail => ?_⟩
  obtain ⟨next, passes⟩ := closes tail htail
  refine ⟨next, Passes.bind (.of_takes 0 fun _ _ _ => .accept_no fun t ht hk => ?_) passes⟩
  exact hf _ next (hk ▸ ahead_of_mem ht)

theorem accept_taken {f : Nat → Bool → Reading α} {t : Token} (hk : t.kind = kind)
    (yes : Closable anything behind fun m => f m true) :
    Closable anything behind fun m => Grammar.accept kind >>= f m := by
  obtain ⟨fix, a, closes⟩ := yes
  exact ⟨t :: fix, a, fun tail htail => ⟨trivial,
    Passes.bind (.of_takes 0 fun _ _ _ => .accept_yes hk) (closes tail htail).2⟩⟩

theorem acceptMeaning_bind {meaning : Kind → Option β} {f : Nat → Option (β × Nat) → Reading α}
    (unknown : Closable front behind fun m => f m none)
    (hf : ∀ next, front next → ∀ kind ∈ next, meaning kind = none) :
    Closable front behind fun m => Grammar.acceptMeaning meaning >>= f m := by
  obtain ⟨fix, a, closes⟩ := unknown
  refine ⟨fix, a, fun tail htail => ?_⟩
  obtain ⟨next, passes⟩ := closes tail htail
  refine ⟨next, Passes.bind (.of_takes 0 fun _ _ _ => .acceptMeaning_none fun t ht => ?_) passes⟩
  exact hf _ next _ (ahead_of_mem ht)

end Closable

namespace Viable

variable {P : List Token → Prop} {first : Kind → Prop} {k l m fuel : Nat} {kind : Kind}
  {mid behind : Option Kind → Prop} {x y : Nat → Reading α}

/-- One reading behind another, which has to take something before `first` matters. -/
theorem before {f : Nat → α → Reading β} (h : Viable P first k mid fuel x)
    (hf : ∀ a, Sure mid l behind fuel fun m => f m a) (enters : 1 ≤ k ∨ ∀ kind, ¬ first kind) :
    Viable P first (k + l) behind fuel fun m => x m >>= f m where
  steady m := (h.steady m).bind fun a => (hf a).viable.steady m
  judged r hr := by
    have he := h.judged r hr
    generalize hx : x fuel r = result at he
    cases he with
    | exhausted =>
      simp only [Bind.bind, EStateM.bind, hx]
      exact .exhausted
    | @passed a s taken split many endLine quiet again =>
      simp only [Bind.bind, EStateM.bind, hx]
      exact .after split many endLine quiet again ((hf a).viable.judged s trivial) (hf a).closable
        (hf a).through enters
    | stopped taken later split here enters' balks mends =>
      exact .broken split (hx ▸ here) enters' balks mends (fun a => (hf a).viable.steady)
        fun a => (hf a).closable

theorem exhaust (steady : ∀ m, Steady (x m) (x (m + 1)))
    (h : ∀ r, x 0 r = .error .exhausted r) : Viable P first k behind 0 x where
  steady := steady
  judged r _ := by
    rw [h]
    exact .exhausted

theorem succ (steady : ∀ m, Steady (x m) (x (m + 1)))
    (h : Viable P first k behind fuel fun m => x (m + 1)) :
    Viable P first k behind (fuel + 1) x where
  steady := steady
  judged r hr := by
    have he := h.judged r hr
    generalize x (fuel + 1) r = result at he ⊢
    cases he with
    | exhausted => exact .exhausted
    | passed taken split many endLine quiet again =>
      exact .passed taken split many endLine quiet fun tail htail => (again tail htail).succ
    | stopped taken later split here enters balks mends =>
      refine .stopped taken later split here enters
        (fun later' same => eventually_succ (balks later' same)) fun some => ?_
      obtain ⟨fix, a, mends⟩ := mends some
      exact ⟨fix, a, fun tail htail => (mends tail htail).succ⟩

theorem restrict {Q : List Token → Prop} (h : Viable P first k behind fuel x)
    (hQ : ∀ tokens, Q tokens → P tokens) : Viable Q first k behind fuel x :=
  ⟨h.steady, fun r hr => h.judged r (hQ _ hr)⟩

theorem within (h : Viable Anywhere first k behind fuel x) : Viable P first k behind fuel x :=
  h.restrict fun _ _ => trivial

theorem mono {first' : Kind → Prop} {behind' : Option Kind → Prop}
    (h : Viable P first k behind fuel x) (hfirst : ∀ kind, first' kind → first kind) (hk : l ≤ k)
    (hbehind : ∀ kind, behind' kind → behind kind) : Viable P first' l behind' fuel x :=
  ⟨h.steady, fun r hr => (h.judged r hr).mono hfirst hk hbehind⟩

theorem atLeast (k : Nat) (h : Viable P first k behind fuel x) (hk : l ≤ k) :
    Viable P first l behind fuel x := h.mono (fun _ => id) hk fun _ => id

theorem ends (h : Viable P first k anything fuel x) : Viable P first k behind fuel x :=
  h.mono (fun _ => id) (Nat.le_refl k) fun _ _ => trivial

/-- Nothing is asked of the first token. -/
theorem unasked (h : Viable P first k behind fuel x) : Viable P never k behind fuel x :=
  h.mono (fun _ => False.elim) (Nat.le_refl k) fun _ => id

theorem pure {a : α} : Viable P first 0 behind fuel fun _ => Pure.pure a where
  steady _ := .pure a
  judged _ _ := .passed [] rfl (Nat.le_refl 0) rfl rfl fun tail _ => .pure a tail

theorem stop {missing : Missing} (h : ∀ tokens, P tokens → ∀ t ∈ tokens.head?, ¬ first t.kind) :
    Viable P first k behind fuel fun _ => (Grammar.stop missing : Reading α) where
  steady _ := .stop missing
  judged r hr := by
    refine .stopped [] r.rest rfl ⟨missing, [], ?_⟩ (fun _ => h _ hr)
      (fun _ _ => .of_forall fun _ _ _ _ _ h => ?_) fun some => absurd rfl some
    · rfl
    · cases h

theorem agree (steady : ∀ m, Steady (x m) (x (m + 1)))
    (h : ∀ tokens, P tokens → ∃ y l, k ≤ l ∧ Viable (· = tokens) first l behind fuel y ∧
      ∀ m s, s.rest.head? = tokens.head? ∨ l = 0 ∧ behind (ahead s.rest) → x m s = y m s) :
    Viable P first k behind fuel x where
  steady := steady
  judged r hr := by
    obtain ⟨y, l, hk, hy, same⟩ := h _ hr
    rw [same fuel r (.inl rfl)]
    exact ((hy.judged r rfl).agree same).mono (fun _ => id) hk fun _ => id

theorem choose {y z : Nat → Reading α} (C : Option Kind → Prop)
    (steady : ∀ m, Steady (x m) (x (m + 1)))
    (yes : Viable (fun tokens => C (ahead tokens)) first m behind fuel y)
    (no : Viable (fun tokens => ¬ C (ahead tokens)) first l behind fuel z)
    (hb : k ≤ m ∧ k ≤ l)
    (goes : ∀ n s, C (ahead s.rest) → x n s = y n s)
    (stays : ∀ n s, ¬ C (ahead s.rest) → x n s = z n s)
    (hm : 1 ≤ m ∨ ∀ next, behind next → C next)
    (hl : 1 ≤ l ∨ ∀ next, behind next → ¬ C next) : Viable Anywhere first k behind fuel x := by
  refine agree steady fun tokens _ => ?_
  by_cases h : C (ahead tokens)
  · refine ⟨y, m, hb.1, yes.restrict (by rintro _ rfl; exact h), fun n s hs => goes n s ?_⟩
    rcases hs with same | ⟨none, next⟩
    · rwa [ahead_of_head? same]
    · exact hm.resolve_left (by omega) _ next
  · refine ⟨z, l, hb.2, no.restrict (by rintro _ rfl; exact h), fun n s hs => stays n s ?_⟩
    rcases hs with same | ⟨none, next⟩
    · rwa [ahead_of_head? same]
    · exact hl.resolve_left (by omega) _ next

theorem advance : Viable (· ≠ []) first 1 behind fuel fun _ => Grammar.advance where
  steady _ := .advance
  judged r hr := by
    obtain ⟨t, rest, hr⟩ := List.exists_cons_of_ne_nil hr
    refine .passed [t] ?_ (Nat.le_refl 1) rfl rfl fun tail _ => ?_
    · rw [hr]
      rfl
    · exact .of_takes 0 fun _ _ _ => .advance

theorem bind {f : Nat → α → Reading β} (h : Viable P first k mid fuel x)
    (hf : ∀ a, Sure mid l behind fuel fun m => f m a) (hb : m ≤ k + l ∧ 1 ≤ k) :
    Viable P first m behind fuel fun n => x n >>= f n :=
  (h.before hf (.inl hb.2)).atLeast _ hb.1

theorem map {f : α → β} (h : Viable P first k behind fuel x) (hk : 1 ≤ k) :
    Viable P first k behind fuel fun m => f <$> x m :=
  h.bind (fun _ => ⟨pure, .pure, .inr fun _ => id⟩) ⟨Nat.le_refl k, hk⟩

theorem advance_bind {f : Nat → Unit → Reading α} (h : Sure anything l behind fuel fun m => f m ())
    (hb : k ≤ 1 + l) (some : ∀ tokens, P tokens → tokens ≠ []) :
    Viable P first k behind fuel fun m => Grammar.advance >>= f m :=
  (advance.restrict some).bind (fun _ => h) ⟨hb, Nat.le_refl 1⟩

theorem ne_nil_of_ahead {tokens : List Token} (h : ahead tokens = some kind) : tokens ≠ [] := by
  obtain ⟨t, rest, rfl, -⟩ := exists_cons_of_ahead h
  exact List.cons_ne_nil t rest

theorem accept_bind {f : Nat → Bool → Reading α}
    (yes : Sure anything m behind fuel fun n => f n true)
    (no : Viable Anywhere first l behind fuel fun n => f n false) (hb : k ≤ 1 + m ∧ k ≤ l)
    (hl : 1 ≤ l ∨ ∀ next, behind next → next ≠ some kind) :
    Viable Anywhere first k behind fuel fun n => Grammar.accept kind >>= f n := by
  refine choose (y := fun n => Grammar.advance >>= fun _ => f n true) (z := fun n => f n false)
    (m := 1 + m) (· = some kind) (fun n => Steady.accept.bind fun b => ?_)
    (advance_bind yes (Nat.le_refl _) fun _ => ne_nil_of_ahead) no.within hb ?_ ?_
    (.inl (by omega)) hl
  · cases b with
    | false => exact no.steady n
    | true => exact yes.viable.steady n
  · intro n s h
    simp only [Bind.bind, EStateM.bind, Grammar.accept, if_pos (leads_iff.mpr h)]
    rfl
  · intro n s h
    simp only [Bind.bind, EStateM.bind, Grammar.accept, if_neg (mt leads_iff.mp h)]

theorem acceptMeaning_bind {meaning : Kind → Option β} {f : Nat → Option (β × Nat) → Reading α}
    (known : ∀ b line, Sure anything m behind fuel fun n => f n (some (b, line)))
    (unknown : Viable Anywhere first l behind fuel fun n => f n none)
    (hb : k ≤ 1 + m ∧ k ≤ l)
    (hl : 1 ≤ l ∨ ∀ next, behind next → ∀ kind ∈ next, meaning kind = none) :
    Viable Anywhere first k behind fuel fun n => Grammar.acceptMeaning meaning >>= f n := by
  have unmet (n : Nat) (s : Reader) (h : ∀ kind ∈ ahead s.rest, meaning kind = none) :
      (Grammar.acceptMeaning meaning >>= f n) s = f n none s := by
    simp only [Bind.bind, EStateM.bind, Grammar.acceptMeaning]
    cases hr : s.rest with
    | nil => rfl
    | cons t rest =>
      rw [hr] at h
      simp only [h t.kind rfl]
  refine agree (fun n => Steady.acceptMeaning.bind fun found => ?_) fun tokens _ => ?_
  · cases found with
    | none => exact unknown.steady n
    | some found => exact (known found.1 found.2).viable.steady n
  · by_cases h : ∀ kind ∈ ahead tokens, meaning kind = none
    · refine ⟨_, l, hb.2, unknown.within, fun n s hs => unmet n s ?_⟩
      rcases hs with same | ⟨none, next⟩
      · rwa [ahead_of_head? same]
      · exact hl.resolve_left (by omega) _ next
    · cases tokens with
      | nil =>
        refine absurd (fun kind hk => ?_) h
        cases hk
      | cons t rest =>
        obtain ⟨b, hm⟩ : ∃ b, meaning t.kind = some b := by
          refine Option.ne_none_iff_exists'.mp fun none => h ?_
          rintro _ ⟨⟩
          exact none
        refine ⟨fun n => Grammar.advance >>= fun _ => f n (some (b, t.line)), 1 + m, hb.1,
          advance_bind (known b t.line) (Nat.le_refl _) ?_, fun n s hs => ?_⟩
        · rintro _ rfl
          exact List.cons_ne_nil t rest
        · have same : s.rest.head? = some t := hs.resolve_right (by omega)
          obtain ⟨rest', hr⟩ := List.head?_eq_some_iff.mp same
          simp only [Bind.bind, EStateM.bind, Grammar.acceptMeaning, Grammar.advance, hr, hm,
            List.tail_cons]

theorem at_bind {f : Nat → Bool → Reading α}
    (yes : Viable (fun tokens => ahead tokens = some kind) first k behind fuel fun m => f m true)
    (no : Viable Anywhere first k behind fuel fun m => f m false) (hk : 1 ≤ k) :
    Viable Anywhere first k behind fuel fun m => at_ kind >>= f m := by
  refine choose (y := fun m => f m true) (z := fun m => f m false) (· = some kind)
    (fun m => Steady.at_.bind fun b => ?_) yes no.within ⟨Nat.le_refl k, Nat.le_refl k⟩ ?_ ?_
    (.inl hk) (.inl hk)
  · cases b with
    | false => exact no.steady m
    | true => exact yes.steady m
  · intro m s h
    simp only [Bind.bind, EStateM.bind, at_, leads_iff.mpr h]
  · intro m s h
    simp only [Bind.bind, EStateM.bind, at_, eq_false_of_ne_true (mt leads_iff.mp h)]

theorem peek_bind {f : Nat → Option Token → Reading α}
    (h : ∀ tokens, Viable (· = tokens) first k behind fuel fun m => f m tokens.head?)
    (hk : 1 ≤ k) : Viable Anywhere first k behind fuel fun m => peek >>= f m := by
  refine agree (fun m => Steady.peek.bind fun next => ?_) fun tokens _ =>
    ⟨_, k, Nat.le_refl k, h tokens, fun m s hs => ?_⟩
  · cases next with
    | none => exact (h []).steady m
    | some t => exact (h [t]).steady m
  · rw [← hs.resolve_right (by omega)]
    rfl

theorem atEnd_bind {f : Nat → Bool → Reading α}
    (yes : Viable Anywhere first m behind fuel fun n => f n true)
    (no : Viable Anywhere first l behind fuel fun n => f n false) (hb : k ≤ m ∧ k ≤ l ∧ 1 ≤ l)
    (hm : 1 ≤ m ∨ ∀ next, behind next → next = none) :
    Viable Anywhere first k behind fuel fun n => atEnd >>= f n := by
  refine choose (y := fun n => f n true) (z := fun n => f n false) (· = none)
    (fun n => Steady.atEnd.bind fun b => ?_) yes.within no.within ⟨hb.1, hb.2.1⟩ (fun n s h => ?_)
    (fun n s h => ?_) hm (.inl hb.2.2)
  · cases b with
    | false => exact no.steady n
    | true => exact yes.steady n
  · simp only [Bind.bind, EStateM.bind, atEnd, isEmpty_iff.mpr h]
  · simp only [Bind.bind, EStateM.bind, atEnd, eq_false_of_ne_true (mt isEmpty_iff.mp h)]

theorem ends_bind {y z : Nat → Reading α} (yes : Viable Anywhere first m behind fuel y)
    (no : Viable Anywhere first l behind fuel z)
    (hb : k ≤ m ∧ k ≤ l ∧ 1 ≤ l) (hm : 1 ≤ m ∨ ∀ next, behind next → next = some kind) :
    Viable Anywhere first k behind fuel fun n => atEnd >>= fun ended => at_ kind >>= fun closed =>
      if (ended || closed) = true then y n else z n := by
  have looks (n : Nat) (s : Reader) : (atEnd >>= fun ended => at_ kind >>= fun closed =>
      if (ended || closed) = true then y n else z n) s =
        if (s.rest.isEmpty || s.leads kind) = true then y n s else z n s := by
    simp only [Bind.bind, EStateM.bind, atEnd, at_]
    split <;> rfl
  have meets (s : Reader) : (s.rest.isEmpty || s.leads kind) = true ↔
      ahead s.rest = none ∨ ahead s.rest = some kind := by
    rw [Bool.or_eq_true, leads_iff, isEmpty_iff]
  refine choose (fun next => next = none ∨ next = some kind) (fun n => ?_) yes.within no.within
    ⟨hb.1, hb.2.1⟩ (fun n s h => ?_) (fun n s h => ?_)
    (hm.imp id fun h next hn => .inr (h next hn)) (.inl hb.2.2)
  · exact Steady.atEnd.bind fun _ => Steady.at_.bind fun _ => .ite (yes.steady n) (no.steady n)
  · rw [looks, if_pos ((meets s).mpr h)]
  · rw [looks, if_neg (mt (meets s).mp h)]

theorem taking {missing : Missing} {b : Token → α} (steady : ∀ m, Steady (x m) (x (m + 1)))
    (takes : ∀ m r t rest, r.rest = t :: rest → t.kind = kind →
      x m r = .ok (b t) { r with rest := rest })
    (refuses : ∀ m r, ahead r.rest ≠ some kind → x m r = Grammar.stop missing r) :
    Viable Anywhere (· = kind) 1 behind fuel x := by
  refine choose (y := x) (z := fun _ => Grammar.stop missing) (m := 1) (l := 1) (· = some kind)
    steady ⟨steady, fun r hr => ?_⟩ (.stop fun tokens h t ht hk => h ?_)
    ⟨Nat.le_refl 1, Nat.le_refl 1⟩ (fun _ _ _ => rfl) refuses (.inl (Nat.le_refl 1))
    (.inl (Nat.le_refl 1))
  · obtain ⟨t, rest, hs, hk⟩ := exists_cons_of_ahead hr
    rw [takes fuel r t rest hs hk]
    exact .passed [t] hs (Nat.le_refl 1) rfl rfl fun tail _ => .of_forall fun m s hr =>
      ⟨s.reports, rfl, takes m s t tail hr hk⟩
  · exact hk ▸ ahead_of_mem ht

theorem expect {s : Symbol} {landmark : Landmark} :
    Viable Anywhere (· = .symbol s) 1 anything fuel fun _ => Grammar.expect s landmark :=
  .taking (b := Token.line) (fun _ => .expect)
    (fun _ r t rest hr hk => by simp only [Grammar.expect, hr, hk, if_true])
    fun _ r h => by
      unfold Grammar.expect
      cases hr : r.rest with
      | nil => rfl
      | cons t rest =>
        rw [hr] at h
        exact if_neg fun hk => h (congrArg some hk)

theorem expectName {missing : Missing} :
    Viable Anywhere (· = .name) 1 anything fuel fun _ => Grammar.expectName missing :=
  .taking (b := fun t => ⟨t.lexeme, t.line⟩) (fun _ => .expectName)
    (fun _ r t rest hr hk => by simp only [Grammar.expectName, hr, hk, if_true])
    fun _ r h => by
      unfold Grammar.expectName
      cases hr : r.rest with
      | nil => rfl
      | cons t rest =>
        rw [hr] at h
        exact if_neg fun hk => h (congrArg some hk)

theorem withLoops {change : Nat → Nat} (h : Viable P first k behind fuel x) :
    Viable P first k behind fuel fun m => Grammar.withLoops change (x m) where
  steady m := (h.steady m).withLoops change
  judged r hr := by
    have he := h.judged { r with loops := change r.loops } hr
    simp only [Grammar.withLoops]
    generalize x fuel _ = result at he ⊢
    cases he with
    | exhausted => exact .exhausted
    | passed taken split many endLine quiet again =>
      exact .passed taken split many endLine quiet fun tail htail => (again tail htail).withLoops
    | @stopped result taken later split here enters balks mends =>
      refine .stopped taken later split ?_ enters (fun later' same => (balks later' same).withLoops)
        fun some => ?_
      · cases result with
        | ok a s => exact here
        | error e s => cases e <;> exact here
      · obtain ⟨fix, a, mends⟩ := mends some
        exact ⟨fix, a, fun tail htail => (mends tail htail).withLoops⟩

theorem recovering (h : Viable P first k behind fuel x) :
    Viable P first k behind fuel fun m => Grammar.recovering (x m) where
  steady m := (h.steady m).recovering
  judged r hr := by
    have he := h.judged r hr
    have grown := (h.steady fuel).grows r
    simp only [Grammar.recovering]
    generalize x fuel r = result at he grown ⊢
    cases he with
    | exhausted => exact .exhausted
    | passed taken split many endLine quiet again =>
      exact .passed taken split many endLine quiet fun tail htail => (again tail htail).recovering
    | @stopped result taken later split here enters balks mends =>
      have stopped {result : EStateM.Result Stop Reader (Option α)}
          (here : StopsAt later r result) :
          Judged first k behind (fun m => Grammar.recovering (x m)) r result := by
        refine .stopped taken later split here enters
          (fun later' same => (balks later' same).recovering h.steady) fun some => ?_
        obtain ⟨fix, a, mends⟩ := mends some
        exact ⟨fix, _, fun tail htail => (mends tail htail).recovering⟩
      cases grown with
      | ok kept => exact stopped here
      | exhausted => exact .exhausted
      | @complaint report s isStop kept =>
        obtain ⟨missing, more, found⟩ := here
        refine stopped ⟨missing, more, ?_⟩
        rw [← found, stopsOf, stopsOf, stops_append, stops_one isStop]

theorem noting (h : Viable P first k behind fuel y) (steady : ∀ m, Steady (x m) (x (m + 1)))
    (same : ∀ m r, ∃ noted, stops noted = stops r.reports ∧
      x m r = y m { r with reports := noted }) : Viable P first k behind fuel x where
  steady := steady
  judged r hr := by
    obtain ⟨noted, quiet, hx⟩ := same fuel r
    rw [hx]
    have he := h.judged { r with reports := noted } hr
    generalize y fuel _ = result at he ⊢
    cases he with
    | exhausted => exact .exhausted
    | passed taken split many endLine quiet' again =>
      exact .passed taken split many endLine (quiet'.trans quiet) fun tail htail =>
        (again tail htail).noting same
    | stopped taken later split here enters balks mends =>
      refine .stopped taken later split (here.before quiet rfl) enters
        (fun later' next => (balks later' next).noting same) fun some => ?_
      obtain ⟨fix, a, mends⟩ := mends some
      exact ⟨fix, a, fun tail htail => (mends tail htail).noting same⟩

theorem noteIf {c : Prop} [Decidable c] {z : Reading Unit} (hz : NotesOnly z)
    (h : Viable P first k behind fuel x) :
    Viable P first k behind fuel fun m => if c then z >>= fun _ => x m else x m :=
  h.noting (fun m => .noteIf hz (h.steady m)) (noteIf_same hz x)

theorem sure {front : Option Kind → Prop} (h : Viable Anywhere first k behind fuel x)
    (closable : Closable front behind x) (through : 1 ≤ k ∨ ∀ next, behind next → front next) :
    Sure front k behind fuel x where
  viable := h.unasked
  closable := closable
  through := through

end Viable

namespace Sure

variable {first : Kind → Prop} {k l m fuel : Nat} {kind : Kind}
  {front front' mid behind : Option Kind → Prop} {x y : Nat → Reading α}

theorem bind {f : Nat → α → Reading β} (h : Sure front k mid fuel x)
    (hf : ∀ a, Sure mid l behind fuel fun n => f n a) (hb : m = k + l) :
    Sure front m behind fuel fun n => x n >>= f n where
  viable := hb ▸ h.viable.before hf (.inr fun _ => id)
  closable := h.closable.bind fun a => (hf a).closable
  through := by
    rcases h.through with taken | through
    · exact .inl (by omega)
    · -- what follows is the same for every result, of which there is one
      obtain ⟨_, a, _⟩ := h.closable
      rcases (hf a).through with taken | through'
      · exact .inl (by omega)
      · exact .inr fun next hn => through next (through' next hn)

theorem pure {a : α} : Sure behind 0 behind fuel fun _ => Pure.pure a :=
  ⟨.pure, .pure, .inr fun _ => id⟩

theorem map {f : α → β} (h : Sure front k behind fuel x) :
    Sure front k behind fuel fun m => f <$> x m := h.bind (fun _ => pure) rfl

theorem ends (h : Sure front k anything fuel x) : Sure front k behind fuel x where
  viable := h.viable.ends
  closable := by
    obtain ⟨fix, a, closes⟩ := h.closable
    exact ⟨fix, a, fun tail _ => closes tail trivial⟩
  through := h.through.imp id fun through next _ => through next trivial

theorem weaken (h : Sure front k behind fuel x) (hf : ∀ next, front next → front' next) :
    Sure front' k behind fuel x where
  viable := h.viable
  closable := h.closable.weaken hf
  through := h.through.imp id fun through next hn => hf next (through next hn)

theorem anywhere (h : Sure front k behind fuel x) : Sure anything k behind fuel x :=
  h.weaken fun _ _ => trivial

theorem withLoops {change : Nat → Nat} (h : Sure front k behind fuel x) :
    Sure front k behind fuel fun m => Grammar.withLoops change (x m) :=
  ⟨h.viable.withLoops, h.closable.withLoops, h.through⟩

theorem noting (h : Sure front k behind fuel y) (steady : ∀ m, Steady (x m) (x (m + 1)))
    (same : ∀ m r, ∃ noted, stops noted = stops r.reports ∧
      x m r = y m { r with reports := noted }) : Sure front k behind fuel x :=
  ⟨h.viable.noting steady same, h.closable.noting same, h.through⟩

theorem expect {s : Symbol} {landmark : Landmark} (hf : front (some (.symbol s))) :
    Sure front 1 anything fuel fun _ => Grammar.expect s landmark :=
  Viable.expect.sure (.expect hf) (.inl (Nat.le_refl 1))

theorem expectName {missing : Missing} :
    Sure anything 1 anything fuel fun _ => Grammar.expectName missing :=
  Viable.expectName.sure .expectName (.inl (Nat.le_refl 1))

theorem unlessAt (h : Viable Anywhere first k behind fuel x) (hk : 1 ≤ k)
    (closes : behind (some kind)) :
    Sure anything 0 (· = some kind) fuel fun m => Grammar.unlessAt kind (x m) where
  viable := by
    refine .choose (y := fun _ => Pure.pure none) (z := fun m => some <$> x m) (l := k) (m := 0)
      (· = some kind) (fun m => (h.steady m).unlessAt) .pure (((h.unasked.map hk).mono
        (fun _ => id) (Nat.le_refl k) ?_).within)
      ⟨Nat.le_refl 0, Nat.zero_le k⟩ (fun _ _ => unlessAt_at) (fun _ _ => unlessAt_other)
      (.inr fun _ => id) (.inl hk)
    rintro _ rfl
    exact closes
  closable := .unlessAt
  through := .inr fun _ _ => trivial

theorem accept_bind {f : Nat → Bool → Reading α}
    (yes : Sure anything m behind fuel fun n => f n true)
    (no : Sure front l behind fuel fun n => f n false) (hb : k ≤ 1 + m ∧ k ≤ l ∧ (k = 0 → l = 0))
    (hf : ∀ next, front next → next ≠ some kind) :
    Sure front k behind fuel fun n => Grammar.accept kind >>= f n where
  viable := .accept_bind yes no.viable ⟨hb.1, hb.2.1⟩
    (no.through.imp id fun through next h => hf next (through next h))
  closable := no.closable.accept_bind hf
  through := no.through.imp (fun taken => by omega) id

theorem acceptMeaning_bind {meaning : Kind → Option β} {f : Nat → Option (β × Nat) → Reading α}
    (known : ∀ b line, Sure anything m behind fuel fun n => f n (some (b, line)))
    (unknown : Sure front l behind fuel fun n => f n none)
    (hb : k ≤ 1 + m ∧ k ≤ l ∧ (k = 0 → l = 0))
    (hf : ∀ next, front next → ∀ kind ∈ next, meaning kind = none) :
    Sure front k behind fuel fun n => Grammar.acceptMeaning meaning >>= f n where
  viable := .acceptMeaning_bind known unknown.viable ⟨hb.1, hb.2.1⟩
    (unknown.through.imp id fun through next h => hf next (through next h))
  closable := unknown.closable.acceptMeaning_bind hf
  through := unknown.through.imp (fun taken => by omega) id

end Sure

end Script.Grammar
