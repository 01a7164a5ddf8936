import Script.Grammar.Reader
import Script.Proofs.Lexical.Renaming

/-! Reading a token list and the renamed one.
The two readings go in step: they take the same tokens, give the tree and the renamed tree, and
complain equally often. -/
namespace Script

open Lexical Grammar

namespace Lexical

/-- Renames a token; of its text only a name is changed. -/
def Renaming.token (ρ : Renaming) (t : Token) : Token :=
  { t with
    lexeme := if t.kind = .name then ρ.text ⟨t.lexeme, t.line⟩ else t.lexeme
    line := ρ.line t.line }

def tokensOf (word : Name) (tokens : List Token) : Nat :=
  tokens.countP fun t => t.kind == .name && ⟨t.lexeme, t.line⟩ == word

/-- The names that belong to a node itself. -/
def Node.names {β : Type} : Node β → List Name
  | .expr (.variable name _) => [name]
  | .expr (.assign name _ _) => [name]
  | .expr (.get _ property) => [property]
  | .expr (.set _ property _) => [property]
  | .stmt (.var name _) => [name]
  | .stmt (.function name _ _) => [name]
  | .stmt (.class_ name methods) => name :: methods.map Method.name
  | .code params _ => params
  | _ => []

def namesOf {β : Type} (word : Name) (nodes : List (Position × Node β)) : Nat :=
  (nodes.flatMap fun x => x.2.names).count word

theorem namesOf_cons {β : Type} (word : Name) (x : Position × Node β) (nodes) :
    namesOf word (x :: nodes) = x.2.names.count word + namesOf word nodes := by
  simp only [namesOf, List.flatMap_cons, List.count_append]

theorem namesOf_append {β : Type} (word : Name) (a b : List (Position × Node β)) :
    namesOf word (a ++ b) = namesOf word a + namesOf word b := by
  simp only [namesOf, List.flatMap_append, List.count_append]

structure Alike (ρ : Renaming) (r r' : Reader) : Prop where
  rest : r'.rest = r.rest.map ρ.token
  loops : r'.loops = r.loops
  reports : r'.reports.length = r.reports.length

theorem Alike.leads {ρ : Renaming} {r r' : Reader} (ha : Alike ρ r r') (kind : Kind) :
    r'.leads kind = r.leads kind := by
  simp only [Reader.leads, ha.rest]
  cases r.rest <;> rfl

theorem Alike.tail {ρ : Renaming} {r r' : Reader} (ha : Alike ρ r r') :
    Alike ρ { r with rest := r.rest.tail } { r' with rest := r'.rest.tail } :=
  { ha with rest := by rw [ha.rest, List.map_tail] }

theorem tokensOf_cons (word : Name) (t : Token) (rest : List Token) :
    tokensOf word (t :: rest) =
      tokensOf word rest + if t.kind == .name && ⟨t.lexeme, t.line⟩ == word then 1 else 0 :=
  List.countP_cons

theorem tokensOf_tail (word : Name) (tokens : List Token) :
    tokensOf word tokens.tail ≤ tokensOf word tokens :=
  (List.tail_sublist tokens).countP_le

theorem resume_token (ρ : Renaming) (tokens : List Token) :
    resume (tokens.map ρ.token) = (resume tokens).map ρ.token := by
  have after : ∀ (rest : List Token) (t : Token),
      resumeAfter (ρ.token t) (rest.map ρ.token) = (resumeAfter t rest).map ρ.token := by
    intro rest
    induction rest with
    | nil => exact fun _ => rfl
    | cons u rest ih =>
      intro t
      have same : ((ρ.token t).kind = .symbol .semicolon ∨ opensStatement (ρ.token u) = true) ↔
          (t.kind = .symbol .semicolon ∨ opensStatement u = true) := Iff.rfl
      simp only [List.map_cons, resumeAfter]
      by_cases h : t.kind = .symbol .semicolon ∨ opensStatement u = true
      · rw [if_pos h, if_pos (same.mpr h), List.map_cons]
      · rw [if_neg h, if_neg (mt same.mp h), ih]
  cases tokens with
  | nil => rfl
  | cons t rest => exact after rest t

theorem tokensOf_resume (word : Name) (tokens : List Token) :
    tokensOf word (resume tokens) ≤ tokensOf word tokens := by
  have after : ∀ (rest : List Token) (t : Token), (resumeAfter t rest).Sublist rest := by
    intro rest
    induction rest with
    | nil => exact fun _ => .slnil
    | cons u rest ih =>
      intro t
      simp only [resumeAfter]
      split
      · exact .refl _
      · exact .cons u (ih u)
  cases tokens with
  | nil => exact Nat.le_refl _
  | cons t rest => exact ((after rest t).cons t).countP_le

variable {α β γ δ : Type}

/-- Both readings end in the same way. `Q` may also speak of the number of names taken. -/
inductive Agree (ρ : Renaming) (word : Name) (Q : α → β → Nat → Prop) (r : Reader) :
    EStateM.Result Stop Reader α → EStateM.Result Stop Reader β → Prop
  | ok {a b s s'} (alike : Alike ρ s s') (n : Nat)
    (taken : tokensOf word s.rest + n = tokensOf word r.rest) (post : Q a b n) :
    Agree ρ word Q r (.ok a s) (.ok b s')
  | complaint {k k' s s'} (alike : Alike ρ s s')
    (taken : tokensOf word s.rest ≤ tokensOf word r.rest) :
    Agree ρ word Q r (.error (.complaint k) s) (.error (.complaint k') s')
  | exhausted {s s'} (alike : Alike ρ s s')
    (taken : tokensOf word s.rest ≤ tokensOf word r.rest) :
    Agree ρ word Q r (.error .exhausted s) (.error .exhausted s')

/-- Two readings agree from wherever they start. -/
def Reads (ρ : Renaming) (word : Name) (x : Reading α) (y : Reading β) (Q : α → β → Nat → Prop) :
    Prop :=
  ∀ r r', Alike ρ r r' → Agree ρ word Q r (x r) (y r')

def ReadsFrom (ρ : Renaming) (word : Name) (t : Token) (x : Reading α) (y : Reading β)
    (Q : α → β → Nat → Prop) : Prop :=
  ∀ r r', Alike ρ r r' → r.rest.head? = some t → Agree ρ word Q r (x r) (y r')

def Equal (a b : α) (_ : Nat) : Prop := a = b

namespace Reads

variable {ρ : Renaming} {word : Name} {x : Reading α} {y : Reading β} {Q : α → β → Nat → Prop}

theorem weaken {R : α → β → Nat → Prop} (h : Reads ρ word x y Q) (hr : ∀ a b n, Q a b n → R a b n) :
    Reads ρ word x y R := by
  intro r r' ha
  have he := h r r' ha
  generalize x r = rx at he ⊢
  generalize y r' = ry at he ⊢
  cases he with
  | ok alike n taken post => exact .ok alike n taken (hr _ _ _ post)
  | complaint alike taken => exact .complaint alike taken
  | exhausted alike taken => exact .exhausted alike taken

theorem from_ (h : Reads ρ word x y Q) (t : Token) : ReadsFrom ρ word t x y Q :=
  fun r r' ha _ => h r r' ha

theorem pure {a : α} {b : β} (h : Q a b 0) : Reads ρ word (Pure.pure a) (Pure.pure b) Q :=
  fun _ _ ha => .ok ha 0 rfl h

theorem bind {f : α → Reading γ} {g : β → Reading δ} {R : γ → δ → Nat → Prop}
    (h : Reads ρ word x y Q)
    (hf : ∀ a b n, Q a b n → Reads ρ word (f a) (g b) fun c d m => R c d (n + m)) :
    Reads ρ word (x >>= f) (y >>= g) R := by
  intro r r' ha
  have he := h r r' ha
  simp only [Bind.bind, EStateM.bind]
  generalize x r = rx at he ⊢
  generalize y r' = ry at he ⊢
  cases he with
  | complaint alike taken => exact .complaint alike taken
  | exhausted alike taken => exact .exhausted alike taken
  | @ok a b s s' alike n taken post =>
    have he := hf a b n post s s' alike
    simp only
    generalize f a s = rf at he ⊢
    generalize g b s' = rg at he ⊢
    cases he with
    | ok alike m taken' post' => exact .ok alike (n + m) (by omega) post'
    | complaint alike taken' => exact .complaint alike (by omega)
    | exhausted alike taken' => exact .exhausted alike (by omega)

theorem bind_of {F : α → β} {P : α → Nat → Prop} {f : α → Reading γ} {g : β → Reading δ}
    {R : γ → δ → Nat → Prop} (h : Reads ρ word x y fun a b n => b = F a ∧ P a n)
    (hf : ∀ a n, P a n → Reads ρ word (f a) (g (F a)) fun c d m => R c d (n + m)) :
    Reads ρ word (x >>= f) (y >>= g) R :=
  h.bind fun a _ n hab => hab.1 ▸ hf a n hab.2

theorem bind_equal {y : Reading α} {f : α → Reading γ} {g : α → Reading δ}
    {R : γ → δ → Nat → Prop} (h : Reads ρ word x y Equal)
    (hf : ∀ a n, Reads ρ word (f a) (g a) fun c d m => R c d (n + m)) :
    Reads ρ word (x >>= f) (y >>= g) R :=
  h.bind fun a _ n hab => hab ▸ hf a n

theorem map {f : α → γ} {g : β → δ} {R : γ → δ → Nat → Prop} (h : Reads ρ word x y Q)
    (hr : ∀ a b n, Q a b n → R (f a) (g b) n) : Reads ρ word (f <$> x) (g <$> y) R := by
  intro r r' ha
  have he := h r r' ha
  simp only [Functor.map, EStateM.map]
  generalize x r = rx at he ⊢
  generalize y r' = ry at he ⊢
  cases he with
  | ok alike n taken post => exact .ok alike n taken (hr _ _ _ post)
  | complaint alike taken => exact .complaint alike taken
  | exhausted alike taken => exact .exhausted alike taken

theorem exhaust : Reads ρ word (Grammar.exhaust : Reading α) (Grammar.exhaust : Reading β) Q :=
  fun _ _ ha => .exhausted ha (Nat.le_refl _)

theorem stop {missing : Missing} :
    Reads ρ word (Grammar.stop missing : Reading α) (Grammar.stop missing : Reading β) Q :=
  fun _ _ ha => .complaint ha (Nat.le_refl _)

theorem noteHere {complaint : Complaint} :
    Reads ρ word (Grammar.noteHere complaint) (Grammar.noteHere complaint) Equal := by
  intro r r' ha
  refine .ok { ha with reports := ?_ } 0 rfl rfl
  simp only [List.length_append, ha.reports, List.length_singleton]

theorem note {report report' : Report} :
    Reads ρ word (Grammar.note report) (Grammar.note report') Equal := by
  intro r r' ha
  refine .ok { ha with reports := ?_ } 0 rfl rfl
  simp only [List.length_append, ha.reports, List.length_singleton]

theorem loopsAround : Reads ρ word Grammar.loopsAround Grammar.loopsAround Equal :=
  fun _ _ ha => .ok ha 0 rfl ha.loops.symm

theorem atEnd : Reads ρ word Grammar.atEnd Grammar.atEnd Equal := by
  intro r r' ha
  refine .ok ha 0 rfl ?_
  simp only [Equal, ha.rest, List.isEmpty_map]

theorem at_ {kind : Kind} : Reads ρ word (Grammar.at_ kind) (Grammar.at_ kind) Equal :=
  fun _ _ ha => .ok ha 0 rfl (ha.leads kind).symm

theorem nameFollows : Reads ρ word Grammar.nameFollows Grammar.nameFollows Equal := by
  intro r r' ha
  refine .ok ha 0 rfl ?_
  unfold Equal
  rw [ha.rest]
  match r.rest with
  | [] => rfl
  | [_] => rfl
  | _ :: _ :: _ => rfl

theorem advance : Reads ρ word Grammar.advance Grammar.advance Equal := by
  intro r r' ha
  have taken := tokensOf_tail word r.rest
  exact .ok ha.tail (tokensOf word r.rest - tokensOf word r.rest.tail)
    (by show tokensOf word r.rest.tail + _ = _; omega) rfl

theorem accept {kind : Kind} : Reads ρ word (Grammar.accept kind) (Grammar.accept kind) Equal := by
  intro r r' ha
  simp only [Grammar.accept, ha.leads]
  split
  · have taken := tokensOf_tail word r.rest
    exact .ok ha.tail (tokensOf word r.rest - tokensOf word r.rest.tail)
      (by show tokensOf word r.rest.tail + _ = _; omega) rfl
  · exact .ok ha 0 rfl rfl

theorem acceptMeaning {meaning : Kind → Option α} :
    Reads ρ word (Grammar.acceptMeaning meaning) (Grammar.acceptMeaning meaning) fun a b _ =>
      b = (a.map fun found => (found.1, ρ.line found.2)) ∧ True := by
  intro r r' ha
  have taken := tokensOf_tail word r.rest
  have tail := ha.tail
  simp only [Grammar.acceptMeaning]
  rw [ha.rest] at tail ⊢
  cases hr : r.rest with
  | nil => exact .ok ha 0 rfl ⟨rfl, trivial⟩
  | cons t rest =>
    rw [hr] at tail taken
    simp only [List.map_cons, Renaming.token]
    cases meaning t.kind with
    | none => exact .ok ha 0 rfl ⟨rfl, trivial⟩
    | some a =>
      exact .ok tail (tokensOf word r.rest - tokensOf word rest)
        (by rw [hr]; show tokensOf word rest + _ = _; simp only [List.tail_cons] at taken; omega)
        ⟨rfl, trivial⟩

theorem expect {symbol : Symbol} {landmark : Landmark} :
    Reads ρ word (Grammar.expect symbol landmark) (Grammar.expect symbol landmark) fun a b _ =>
      b = ρ.line a ∧ True := by
  intro r r' ha
  have taken := tokensOf_tail word r.rest
  have tail := ha.tail
  simp only [Grammar.expect]
  rw [ha.rest] at tail ⊢
  cases hr : r.rest with
  | nil => exact .complaint ha (Nat.le_refl _)
  | cons t rest =>
    rw [hr] at tail taken
    simp only [List.map_cons, Renaming.token]
    split
    · exact .ok tail (tokensOf word r.rest - tokensOf word rest)
        (by rw [hr]; show tokensOf word rest + _ = _; simp only [List.tail_cons] at taken; omega)
        ⟨rfl, trivial⟩
    · exact .complaint ha (Nat.le_refl _)

theorem expectName {missing : Missing} :
    Reads ρ word (Grammar.expectName missing) (Grammar.expectName missing) fun a b n =>
      b = ρ.name a ∧ [a].count word ≤ n := by
  intro r r' ha
  have tail := ha.tail
  simp only [Grammar.expectName]
  rw [ha.rest] at tail ⊢
  cases hr : r.rest with
  | nil => exact .complaint ha (Nat.le_refl _)
  | cons t rest =>
    rw [hr] at tail
    simp only [List.map_cons, Renaming.token]
    by_cases hk : t.kind = .name
    · simp only [if_pos hk]
      refine .ok tail (if t.kind == .name && ⟨t.lexeme, t.line⟩ == word then 1 else 0)
        (by rw [hr, tokensOf_cons]) ⟨rfl, ?_⟩
      simp only [hk, beq_self_eq_true, Bool.true_and, List.count_singleton]
      exact Nat.le_refl _
    · simp only [if_neg hk]
      exact .complaint ha (Nat.le_refl _)

theorem peek_bind {f : Option Token → Reading α} {g : Option Token → Reading β}
    (none : Reads ρ word (f none) (g none) Q)
    (some : ∀ t, ReadsFrom ρ word t (f (some t)) (g (some (ρ.token t))) Q) :
    Reads ρ word (peek >>= f) (peek >>= g) Q := by
  intro r r' ha
  show Agree ρ word Q r (f r.rest.head? r) (g r'.rest.head? r')
  rw [ha.rest, List.head?_map]
  cases hr : r.rest.head? with
  | none => exact none r r' ha
  | some t => exact some t r r' ha hr

theorem advance_bind {t : Token} {f : Unit → Reading α} {g : Unit → Reading β}
    (h : Reads ρ word (f ()) (g ()) fun a b n =>
      Q a b ((if t.kind == .name && ⟨t.lexeme, t.line⟩ == word then 1 else 0) + n)) :
    ReadsFrom ρ word t (Grammar.advance >>= f) (Grammar.advance >>= g) Q := by
  intro r r' ha ht
  have he := h _ _ ha.tail
  show Agree ρ word Q r (f () { r with rest := r.rest.tail }) (g () { r' with rest := r'.rest.tail })
  obtain ⟨rest, hr⟩ := List.head?_eq_some_iff.mp ht
  have count : tokensOf word r.rest = tokensOf word r.rest.tail +
      if t.kind == .name && ⟨t.lexeme, t.line⟩ == word then 1 else 0 := by rw [hr, tokensOf_cons]; rfl
  generalize f () _ = rx at he ⊢
  generalize g () _ = ry at he ⊢
  cases he with
  | ok alike n taken post => exact .ok alike _ (by simp only at taken; omega) post
  | complaint alike taken => exact .complaint alike (by simp only at taken; omega)
  | exhausted alike taken => exact .exhausted alike (by simp only at taken; omega)

theorem withLoops {change : Nat → Nat} (h : Reads ρ word x y Q) :
    Reads ρ word (Grammar.withLoops change x) (Grammar.withLoops change y) Q := by
  intro r r' ha
  have he := h { r with loops := change r.loops } { r' with loops := change r'.loops }
    { ha with loops := congrArg change ha.loops }
  simp only [Grammar.withLoops]
  generalize x _ = rx at he ⊢
  generalize y _ = ry at he ⊢
  cases he with
  | ok alike n taken post => exact .ok { alike with loops := ha.loops } n taken post
  | complaint alike taken => exact .complaint { alike with loops := ha.loops } taken
  | exhausted alike taken => exact .exhausted { alike with loops := ha.loops } taken

theorem unlessAt (kind : Kind) {R : Option α → Option β → Nat → Prop} (h : Reads ρ word x y Q)
    (none : ∀ n, R none none n) (some : ∀ a b m n, Q a b m → R (some a) (some b) (n + m)) :
    Reads ρ word (Grammar.unlessAt kind x) (Grammar.unlessAt kind y) R := by
  refine at_.bind_equal fun a n => ?_
  cases a with
  | true => exact pure (none _)
  | false => exact h.map fun a b m hq => some a b m n hq

theorem recovering {R : Option α → Option β → Nat → Prop} (h : Reads ρ word x y Q)
    (none : ∀ n, R none none n) (some : ∀ a b n, Q a b n → R (some a) (some b) n) :
    Reads ρ word (Grammar.recovering x) (Grammar.recovering y) R := by
  intro r r' ha
  have he := h r r' ha
  simp only [Grammar.recovering]
  generalize x r = rx at he ⊢
  generalize y r' = ry at he ⊢
  cases he with
  | ok alike n taken post => exact .ok alike n taken (some _ _ _ post)
  | exhausted alike taken => exact .exhausted alike taken
  | @complaint k k' s s' alike taken =>
    have fewer := tokensOf_resume word s.rest
    refine .ok ⟨?_, alike.loops, ?_⟩ (tokensOf word r.rest - tokensOf word (resume s.rest)) ?_ (none _)
    · show resume s'.rest = (resume s.rest).map ρ.token
      rw [alike.rest, resume_token]
    · simp only [List.length_append, alike.reports, List.length_singleton]
    · show tokensOf word (resume s.rest) + _ = _
      omega

end Reads

end Lexical

end Script
