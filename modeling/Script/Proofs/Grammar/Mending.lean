import Mathlib.Order.Filter.AtTopBot.Basic
import Script.Proofs.Grammar.Covering
import Script.Proofs.Grammar.Fuel

/-! Where a reading is stopped first, and how it could have gone on.
With the token next that a reading stops at, no other tokens behind it save the reading; without it,
there are tokens that complete the reading. -/
namespace Script.Grammar

open Filter

variable {α β : Type}

/-- The kind of the next token. -/
def ahead (tokens : List Token) : Option Kind := tokens.head?.map Token.kind

/-- With enough fuel the reading passes over tokens to the rest. Complaints may be noted on the way,
but none stops it. -/
def Passes (x : Nat → Reading α) (tokens : List Token) (a : α) (rest : List Token) : Prop :=
  ∀ᶠ fuel in atTop, ∀ r : Reader, r.rest = tokens → ∃ noted, stops noted = stops r.reports ∧
    x fuel r = .ok a { r with rest := rest, reports := noted }

/-- With enough fuel the reading does not end unless some complaint stopped a part of it. -/
def Balks (x : Nat → Reading α) (tokens : List Token) : Prop :=
  ∀ᶠ fuel in atTop, ∀ r : Reader, r.rest = tokens → ∀ a s, x fuel r = .ok a s →
    (stops r.reports).length < (stops s.reports).length

/-- There are tokens that the reading passes over before what may stand behind it. `front` is what
may stand behind something in front of the reading. -/
def Closable (front behind : Option Kind → Prop) (x : Nat → Reading α) : Prop :=
  ∃ fix a, ∀ tail, behind (ahead tail) →
    front (ahead (fix ++ tail)) ∧ Passes x (fix ++ tail) a tail

/-- The complaints that stopped readings up to the end of one, that which ends it included. -/
def stopsOf : EStateM.Result Stop Reader α → List Report
  | .ok _ s => stops s.reports
  | .error (.complaint report) s => stops s.reports ++ [report]
  | .error .exhausted s => stops s.reports

/-- The first complaint that stopped a part of the reading was made where these tokens are left. -/
def StopsAt (later : List Token) (r : Reader) (result : EStateM.Result Stop Reader α) : Prop :=
  ∃ missing more, stopsOf result =
    stops r.reports ++ Reader.report { r with rest := later } (.expected missing) :: more

/-- How a reading ends. At least `least` tokens are taken if it is not stopped, and it is not
stopped before the next token if that is of a kind in `first`. -/
inductive Judged (first : Kind → Prop) (least : Nat) (behind : Option Kind → Prop)
    (x : Nat → Reading α) (r : Reader) : EStateM.Result Stop Reader α → Prop
  | passed {a s} (taken : List Token) (split : r.rest = taken ++ s.rest)
    (many : least ≤ taken.length) (endLine : s.endLine = r.endLine)
    (quiet : stops s.reports = stops r.reports)
    (again : ∀ tail, tail.head? = s.rest.head? ∨ behind (ahead tail) →
      Passes x (taken ++ tail) a tail) :
    Judged first least behind x r (.ok a s)
  | stopped {result} (taken later : List Token) (split : r.rest = taken ++ later)
    (here : StopsAt later r result)
    (enters : taken = [] → ∀ t ∈ r.rest.head?, ¬ first t.kind)
    (balks : ∀ later', later'.head? = later.head? → Balks x (taken ++ later'))
    (mends : taken ≠ [] → ∃ fix a, ∀ tail, behind (ahead tail) →
      Passes x (taken ++ (fix ++ tail)) a tail) :
    Judged first least behind x r result
  | exhausted {s} : Judged first least behind x r (.error .exhausted s)

structure Viable (P : List Token → Prop) (first : Kind → Prop) (least : Nat)
    (behind : Option Kind → Prop) (fuel : Nat) (x : Nat → Reading α) : Prop where
  steady : ∀ m, Steady (x m) (x (m + 1))
  judged : ∀ r, P r.rest → Judged first least behind x r (x fuel r)

/-- No kind is asked for. -/
def never (_ : Kind) : Prop := False

def anything (_ : Option Kind) : Prop := True

structure Sure (front : Option Kind → Prop) (least : Nat) (behind : Option Kind → Prop)
    (fuel : Nat) (x : Nat → Reading α) : Prop where
  viable : Viable Anywhere never least behind fuel x
  closable : Closable front behind x
  through : 1 ≤ least ∨ ∀ k, behind k → front k

theorem head?_append_of {taken rest rest' : List Token}
    (h : taken ≠ [] ∨ rest.head? = rest'.head?) :
    (taken ++ rest).head? = (taken ++ rest').head? := by
  cases taken with
  | nil => exact h.resolve_left (not_not_intro rfl)
  | cons t taken => rfl

theorem ahead_of_head? {tokens tokens' : List Token} (h : tokens.head? = tokens'.head?) :
    ahead tokens = ahead tokens' := congrArg (Option.map Token.kind) h

theorem ahead_of_mem {tokens : List Token} {t : Token} (h : t ∈ tokens.head?) :
    ahead tokens = some t.kind := congrArg (Option.map Token.kind) h

theorem ahead_eq_none {tokens : List Token} : ahead tokens = none ↔ tokens = [] :=
  Option.map_eq_none_iff.trans List.head?_eq_none_iff

theorem exists_cons_of_ahead {tokens : List Token} {kind : Kind} (h : ahead tokens = some kind) :
    ∃ t rest, tokens = t :: rest ∧ t.kind = kind := by
  obtain ⟨t, ht, hk⟩ := Option.map_eq_some_iff.mp h
  obtain ⟨rest, split⟩ := List.head?_eq_some_iff.mp ht
  exact ⟨t, rest, split, hk⟩

theorem leads_iff {r : Reader} {kind : Kind} :
    r.leads kind = true ↔ ahead r.rest = some kind := by
  unfold Reader.leads ahead
  cases r.rest with
  | nil => exact ⟨nofun, nofun⟩
  | cons t rest => exact beq_iff_eq.trans (Option.some_inj (a := t.kind)).symm

theorem unlessAt_at {α : Type} {x : Reading α} {r : Reader} {kind : Kind}
    (h : ahead r.rest = some kind) : unlessAt kind x r = .ok none r := by
  simp only [unlessAt, Rules.unlessAt, Bind.bind, EStateM.bind, TokenReader.at_, at_,
    leads_iff.mpr h, if_true]
  rfl

theorem unlessAt_other {α : Type} {x : Reading α} {r : Reader} {kind : Kind}
    (h : ¬ ahead r.rest = some kind) : unlessAt kind x r = (some <$> x) r := by
  simp only [unlessAt, Rules.unlessAt, Bind.bind, EStateM.bind, TokenReader.at_, at_,
    eq_false_of_ne_true (mt leads_iff.mp h), if_neg Bool.false_ne_true]

theorem isEmpty_iff {tokens : List Token} : tokens.isEmpty = true ↔ ahead tokens = none :=
  List.isEmpty_iff.trans ahead_eq_none.symm

theorem eventually_succ {p : Nat → Prop} (h : ∀ᶠ fuel in atTop, p (fuel + 1)) :
    ∀ᶠ fuel in atTop, p fuel := by
  obtain ⟨n, hn⟩ := eventually_atTop.mp h
  refine eventually_atTop.mpr ⟨n + 1, fun fuel hfuel => ?_⟩
  obtain ⟨fuel, rfl⟩ : ∃ k, fuel = k + 1 := ⟨fuel - 1, by omega⟩
  exact hn fuel (by omega)

namespace Passes

variable {x y : Nat → Reading α} {tokens middle rest : List Token} {a : α}

theorem of_takes (enough : Nat)
    (h : ∀ fuel, enough ≤ fuel → ∀ loops, Takes loops (x fuel) tokens a rest) :
    Passes x tokens a rest := by
  refine eventually_atTop.mpr ⟨enough, fun fuel hfuel r hr => ⟨r.reports, rfl, ?_⟩⟩
  obtain ⟨_, endLine, reports, loops⟩ := r
  subst hr
  exact h fuel hfuel loops endLine reports

theorem succ (h : Passes (fun fuel => x (fuel + 1)) tokens a rest) : Passes x tokens a rest :=
  eventually_succ h

theorem pure (a : α) (tokens : List Token) : Passes (fun _ => Pure.pure a) tokens a tokens :=
  of_takes 0 fun _ _ _ => .refl

theorem bind {f : Nat → α → Reading β} {b : β} (h : Passes x tokens a middle)
    (h' : Passes (fun fuel => f fuel a) middle b rest) :
    Passes (fun fuel => x fuel >>= f fuel) tokens b rest := by
  filter_upwards [h, h'] with fuel hx hf r hr
  obtain ⟨noted, quiet, hx⟩ := hx r hr
  obtain ⟨noted', quiet', hf⟩ := hf { r with rest := middle, reports := noted } rfl
  refine ⟨noted', quiet'.trans quiet, ?_⟩
  simp only [Bind.bind, EStateM.bind, hx]
  exact hf

/-- The reading is another one behind some tokens. -/
theorem led (h : Passes y middle a rest)
    (leads : ∀ m loops, Leads loops (x m) tokens middle (y m)) : Passes x tokens a rest := by
  filter_upwards [h] with fuel hy r hr
  obtain ⟨noted, quiet, hy⟩ := hy { r with rest := middle } rfl
  refine ⟨noted, quiet, Eq.trans ?_ hy⟩
  subst hr
  exact leads fuel r.loops r.endLine r.reports

theorem agree (h : Passes y tokens a rest)
    (same : ∀ m r, r.rest = tokens → x m r = y m r) : Passes x tokens a rest := by
  filter_upwards [h] with fuel hy r hr
  rw [same fuel r hr]
  exact hy r hr

theorem noting (h : Passes y tokens a rest)
    (same : ∀ m r, ∃ noted, stops noted = stops r.reports ∧
      x m r = y m { r with reports := noted }) : Passes x tokens a rest := by
  filter_upwards [h] with fuel hy r hr
  obtain ⟨noted, quiet, hx⟩ := same fuel r
  obtain ⟨noted', quiet', hy⟩ := hy { r with reports := noted } hr
  exact ⟨noted', quiet'.trans quiet, hx.trans hy⟩

theorem withLoops {change : Nat → Nat} (h : Passes x tokens a rest) :
    Passes (fun fuel => withLoops change (x fuel)) tokens a rest := by
  filter_upwards [h] with fuel hx r hr
  obtain ⟨noted, quiet, hx⟩ := hx { r with loops := change r.loops } hr
  refine ⟨noted, quiet, ?_⟩
  simp only [Grammar.withLoops, hx]

theorem recovering (h : Passes x tokens a rest) :
    Passes (fun fuel => recovering (x fuel)) tokens (some a) rest := by
  filter_upwards [h] with fuel hx r hr
  obtain ⟨noted, quiet, hx⟩ := hx r hr
  refine ⟨noted, quiet, ?_⟩
  simp only [Grammar.recovering, hx]

end Passes

namespace Balks

variable {x y : Nat → Reading α} {tokens middle : List Token} {a : α}

/-- What follows does not take a complaint back. -/
theorem bind {f : Nat → α → Reading β} (h : Balks x tokens)
    (steady : ∀ a m, Steady (f m a) (f (m + 1) a)) :
    Balks (fun fuel => x fuel >>= f fuel) tokens := by
  filter_upwards [h] with fuel hx r hr b s hb
  simp only [Bind.bind, EStateM.bind] at hb
  cases ha : x fuel r with
  | error e s' =>
    rw [ha] at hb
    cases hb
  | ok a s' =>
    rw [ha] at hb
    have more := (steady a fuel).grows s'
    rw [show f fuel a s' = .ok b s from hb] at more
    cases more with
    | ok kept => exact Nat.lt_of_lt_of_le (hx r hr a s' ha) kept.length_le

/-- Behind what is passed over. -/
theorem behind {f : Nat → α → Reading β} (h : Passes x tokens a middle)
    (h' : Balks (fun fuel => f fuel a) middle) :
    Balks (fun fuel => x fuel >>= f fuel) tokens := by
  filter_upwards [h, h'] with fuel hx hf r hr b s hb
  obtain ⟨noted, quiet, hx⟩ := hx r hr
  simp only [Bind.bind, EStateM.bind, hx] at hb
  have more := hf { r with rest := middle, reports := noted } rfl b s hb
  rwa [quiet] at more

theorem led (h : Balks y middle) (leads : ∀ m loops, Leads loops (x m) tokens middle (y m)) :
    Balks x tokens := by
  filter_upwards [h] with fuel hy r hr a s hx
  subst hr
  exact hy { r with rest := middle } rfl a s
    ((leads fuel r.loops r.endLine r.reports).symm.trans hx)

theorem agree (h : Balks y tokens) (same : ∀ m r, r.rest = tokens → x m r = y m r) :
    Balks x tokens := by
  filter_upwards [h] with fuel hy r hr a s hx
  rw [same fuel r hr] at hx
  exact hy r hr a s hx

theorem noting (h : Balks y tokens)
    (same : ∀ m r, ∃ noted, stops noted = stops r.reports ∧
      x m r = y m { r with reports := noted }) : Balks x tokens := by
  filter_upwards [h] with fuel hy r hr a s hx
  obtain ⟨noted, quiet, same⟩ := same fuel r
  have more := hy { r with reports := noted } hr a s (same.symm.trans hx)
  rwa [quiet] at more

theorem withLoops {change : Nat → Nat} (h : Balks x tokens) :
    Balks (fun fuel => withLoops change (x fuel)) tokens := by
  filter_upwards [h] with fuel hx r hr a s ha
  simp only [Grammar.withLoops] at ha
  cases hi : x fuel { r with loops := change r.loops } with
  | error e s' =>
    rw [hi] at ha
    cases ha
  | ok b s' =>
    rw [hi] at ha
    cases ha
    exact hx { r with loops := change r.loops } hr _ s' hi

theorem recovering (h : Balks x tokens) (steady : ∀ m, Steady (x m) (x (m + 1))) :
    Balks (fun fuel => recovering (x fuel)) tokens := by
  filter_upwards [h] with fuel hx r hr a s ha
  have grown := (steady fuel).grows r
  simp only [Grammar.recovering] at ha
  cases hi : x fuel r with
  | ok b s' =>
    rw [hi] at ha
    cases ha
    exact hx r hr b _ hi
  | error e s' =>
    rw [hi] at ha grown
    cases grown with
    | complaint isStop kept =>
      cases ha
      rw [stops_append, stops_one isStop, List.length_append]
      exact Nat.lt_succ_of_le kept.length_le
    | exhausted => cases ha

end Balks

namespace StopsAt

variable {later : List Token} {r s : Reader} {result : EStateM.Result Stop Reader α}

/-- Behind the complaint nothing changes. -/
theorem bind {a : α} {result' : EStateM.Result Stop Reader β} (h : StopsAt later r (.ok a s))
    (more : Grown s result') (ends : ∀ s', result' ≠ .error .exhausted s') :
    StopsAt later r result' := by
  obtain ⟨missing, others, found⟩ := h
  replace found : stops s.reports = _ := found
  cases more with
  | ok kept =>
    obtain ⟨added, kept⟩ := kept
    refine ⟨missing, others ++ added, ?_⟩
    rw [stopsOf, ← kept, found, List.append_assoc, List.cons_append]
  | @complaint report _ isStop kept =>
    obtain ⟨added, kept⟩ := kept
    refine ⟨missing, others ++ (added ++ [report]), ?_⟩
    rw [stopsOf, ← kept, found]
    simp only [List.append_assoc, List.cons_append]
  | exhausted => exact absurd rfl (ends _)

theorem error {e : Stop} (h : StopsAt later r (.error e s : EStateM.Result Stop Reader α)) :
    StopsAt later r (.error e s : EStateM.Result Stop Reader β) := by
  cases e <;> exact h

theorem before (h : StopsAt later s result) (quiet : stops s.reports = stops r.reports)
    (endLine : s.endLine = r.endLine) : StopsAt later r result := by
  obtain ⟨missing, more, found⟩ := h
  refine ⟨missing, more, ?_⟩
  rw [found, quiet]
  unfold Reader.report
  cases later
  · simp only [endLine]
  · rfl

end StopsAt

end Script.Grammar
