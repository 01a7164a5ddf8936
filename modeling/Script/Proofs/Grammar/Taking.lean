import Script.Proofs.Grammar.Writing

/-! What a reading does with tokens that fit it.
A reading leads over some tokens to another one if from there on it does what the other does behind
them, whatever was complained of before. -/
namespace Script.Grammar

variable {α β : Type}

/-- Within so many loops, a reading at some tokens is another one at the rest of them. -/
def Leads (loops : Nat) (x : Reading α) (tokens rest : List Token) (y : Reading α) : Prop :=
  ∀ endLine reports,
    x ⟨tokens, endLine, reports, loops⟩ = y ⟨rest, endLine, reports, loops⟩

abbrev Takes (loops : Nat) (x : Reading α) (tokens : List Token) (a : α) (rest : List Token) :
    Prop :=
  Leads loops x tokens rest (pure a)

def Next (P : Kind → Prop) (tokens : List Token) : Prop := ∀ t ∈ tokens.head?, P t.kind

theorem Next.cons {P : Kind → Prop} {t : Token} {rest : List Token} (h : P t.kind) :
    Next P (t :: rest) := by
  intro u hu
  cases hu
  exact h

theorem Next.name {n : Name} {rest : List Token} {kind : Kind} (h : kind ≠ .name) :
    Next (· ≠ kind) (nameToken n :: rest) := Next.cons h.symm

theorem Next.symbol {s : Symbol} {line : Nat} {rest : List Token} {kind : Kind}
    (h : kind ≠ .symbol s) : Next (· ≠ kind) (symbolAt s line :: rest) := Next.cons h.symm

theorem Next.keyword {k : Keyword} {line : Nat} {rest : List Token} {kind : Kind}
    (h : kind ≠ .keyword k) : Next (· ≠ kind) (keywordAt k line :: rest) := Next.cons h.symm

theorem Next.nil {P : Kind → Prop} : Next P [] := fun _ h => nomatch h

theorem Next.mono {P Q : Kind → Prop} {tokens : List Token} (h : Next P tokens)
    (hq : ∀ k, P k → Q k) : Next Q tokens := fun t ht => hq _ (h t ht)

theorem leads_false {tokens : List Token} {kind : Kind} {endLine reports loops}
    (h : Next (· ≠ kind) tokens) :
    Reader.leads ⟨tokens, endLine, reports, loops⟩ kind = false := by
  cases tokens with
  | nil => rfl
  | cons t rest => exact beq_eq_false_iff_ne.mpr (h t rfl)

theorem leads_true {t : Token} {rest : List Token} {kind : Kind} {endLine reports loops}
    (h : t.kind = kind) : Reader.leads ⟨t :: rest, endLine, reports, loops⟩ kind = true :=
  beq_iff_eq.mpr h

namespace Leads

variable {loops : Nat} {tokens middle rest : List Token} {t : Token} {kind : Kind}
  {x y z : Reading α}

theorem refl : Leads loops x tokens tokens x := fun _ _ => rfl

theorem trans (h : Leads loops x tokens middle y) (h' : Leads loops y middle rest z) :
    Leads loops x tokens rest z := fun endLine reports =>
  (h endLine reports).trans (h' endLine reports)

/-- Behind what has been taken, the reading that was to follow. -/
theorem bind {x : Reading β} {f : β → Reading α} {b : β} (h : Takes loops x tokens b middle)
    (h' : Leads loops (f b) middle rest y) : Leads loops (x >>= f) tokens rest y := by
  intro endLine reports
  have first := h endLine reports
  show EStateM.bind x f _ = _
  unfold EStateM.bind
  rw [first]
  exact h' endLine reports

theorem accept_yes (h : t.kind = kind) : Takes loops (accept kind) (t :: rest) true rest := by
  intro endLine reports
  rw [accept, leads_true h, if_pos rfl]
  rfl

theorem accept_no (h : Next (· ≠ kind) tokens) :
    Takes loops (accept kind) tokens false tokens := by
  intro endLine reports
  rw [accept, leads_false h, if_neg Bool.false_ne_true]
  rfl

theorem accept_symbol {s : Symbol} {line : Nat} :
    Takes loops (accept (.symbol s)) (symbolAt s line :: rest) true rest := accept_yes rfl

theorem accept_keyword {k : Keyword} {line : Nat} :
    Takes loops (accept (.keyword k)) (keywordAt k line :: rest) true rest := accept_yes rfl

theorem at_yes (h : t.kind = kind) : Takes loops (at_ kind) (t :: rest) true (t :: rest) := by
  intro endLine reports
  rw [at_, leads_true h]
  rfl

theorem at_symbol {s : Symbol} {line : Nat} :
    Takes loops (at_ (.symbol s)) (symbolAt s line :: rest) true (symbolAt s line :: rest) :=
  at_yes rfl

theorem at_keyword {k : Keyword} {line : Nat} :
    Takes loops (at_ (.keyword k)) (keywordAt k line :: rest) true (keywordAt k line :: rest) :=
  at_yes rfl

theorem at_no (h : Next (· ≠ kind) tokens) : Takes loops (at_ kind) tokens false tokens := by
  intro endLine reports
  rw [at_, leads_false h]
  rfl

theorem atEnd_cons : Takes loops atEnd (t :: rest) false (t :: rest) := fun _ _ => rfl

theorem atEnd_nil : Takes loops atEnd [] true [] := fun _ _ => rfl

theorem peek : Takes loops peek (t :: rest) (some t) (t :: rest) := fun _ _ => rfl

theorem advance : Takes loops advance (t :: rest) () rest := fun _ _ => rfl

theorem loopsAround : Takes loops loopsAround tokens loops tokens := fun _ _ => rfl

theorem nameFollows_yes {u : Token} (h : u.kind = .name) :
    Takes loops nameFollows (t :: u :: rest) true (t :: u :: rest) := by
  intro endLine reports
  simp only [nameFollows, h]
  rfl

theorem nameFollows_no (h : Next (· ≠ .name) rest) :
    Takes loops nameFollows (t :: rest) false (t :: rest) := by
  intro endLine reports
  cases rest with
  | nil => rfl
  | cons u rest =>
    have hu : (u.kind == Kind.name) = false := beq_eq_false_iff_ne.mpr (h u rfl)
    simp only [nameFollows, hu]
    rfl

theorem nameFollows_either (loops : Nat) (tokens : List Token) :
    ∃ b, Takes loops nameFollows tokens b tokens := by
  rcases tokens with _ | ⟨s, _ | ⟨t, rest⟩⟩
  · exact ⟨false, fun _ _ => rfl⟩
  · exact ⟨false, fun _ _ => rfl⟩
  · exact ⟨t.kind == .name, fun _ _ => rfl⟩

theorem expect {s : Symbol} {line : Nat} {landmark : Landmark} :
    Takes loops (expect s landmark) (symbolAt s line :: rest) line rest := by
  intro endLine reports
  simp only [Grammar.expect, symbolAt, if_true]
  rfl

theorem expectName {n : Name} {missing : Missing} :
    Takes loops (expectName missing) (nameToken n :: rest) n rest := by
  intro endLine reports
  simp only [Grammar.expectName, nameToken, if_true]
  rfl

theorem acceptMeaning_some {meaning : Kind → Option β} {b : β} (h : meaning t.kind = some b) :
    Takes loops (acceptMeaning meaning) (t :: rest) (some (b, t.line)) rest := by
  intro endLine reports
  simp only [acceptMeaning, h]
  rfl

theorem accept_only {s : Symbol} {line : Nat} :
    Takes loops (acceptMeaning fun k => if k = .symbol s then some () else none)
      (symbolAt s line :: rest) (some ((), line)) rest := acceptMeaning_some (if_pos rfl)

theorem acceptMeaning_none {meaning : Kind → Option β} (h : Next (meaning · = none) tokens) :
    Takes loops (acceptMeaning meaning) tokens none tokens := by
  intro endLine reports
  cases tokens with
  | nil => rfl
  | cons u rest =>
    simp only [acceptMeaning, h u rfl]
    rfl

theorem map {x : Reading β} {f : β → α} {b : β} (h : Takes loops x tokens b rest) :
    Takes loops (f <$> x) tokens (f b) rest := by
  intro endLine reports
  have first := h endLine reports
  show EStateM.map f x _ = _
  unfold EStateM.map
  rw [first]
  rfl

theorem withLoops {change : Nat → Nat} {a : α} (h : Takes (change loops) x tokens a rest) :
    Takes loops (withLoops change x) tokens a rest := by
  intro endLine reports
  simp only [Grammar.withLoops, h endLine reports]
  rfl

theorem insideLoop {a : α} (h : Takes (loops + 1) x tokens a rest) :
    Takes loops (insideLoop x) tokens a rest := withLoops h

theorem outsideLoops {a : α} (h : Takes 0 x tokens a rest) :
    Takes loops (outsideLoops x) tokens a rest := withLoops h

theorem recovering {a : α} (h : Takes loops x tokens a rest) :
    Takes loops (recovering x) tokens (some a) rest := by
  intro endLine reports
  simp only [Grammar.recovering, h endLine reports]
  rfl

theorem unlessAt_yes (h : t.kind = kind) :
    Takes loops (unlessAt kind x) (t :: rest) none (t :: rest) :=
  (at_yes h).bind refl

theorem unlessAt_symbol {s : Symbol} {line : Nat} :
    Takes loops (unlessAt (.symbol s) x) (symbolAt s line :: rest) none (symbolAt s line :: rest) :=
  unlessAt_yes rfl

theorem unlessAt_no {a : α} (h : Next (· ≠ kind) tokens) (hx : Takes loops x tokens a rest) :
    Takes loops (unlessAt kind x) tokens (some a) rest :=
  (at_no h).bind hx.map

theorem not_noted {c : Prop} [Decidable c] {y : Reading Unit} {f : Unit → Reading α} {z : Reading α}
    (hc : ¬ c) (h : Leads loops (f ()) tokens rest z) :
    Leads loops (if c then y >>= f else f ()) tokens rest z := by
  rw [if_neg hc]
  exact h

end Leads

end Script.Grammar
