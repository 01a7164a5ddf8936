import Script.Proofs.Guarded.Run
import Script.Proofs.Running.Related

/-! What a guarded run of scoped code does.
Where jumps and returns stand in loops and in functions, and so do those of all the code that the
machine holds, a guarded run ends as the run itself does. -/
namespace Script

open Lexical

variable {α β : Type}

def Closure.Confined (c : Closure) : Prop := ∃ q, ∀ x ∈ codeNodes q c.params c.body, Scoped x

def Class.Confined (c : Class) : Prop := ∃ q, ∀ x ∈ methodsNodes q c.methods, Scoped x

def Machine.Callee.Confined : Machine.Callee → Prop
  | native _ => True
  | function c => c.Confined
  | class_ _ c => c.Confined

/-- All code that a machine holds is scoped. -/
structure Machine.Confined (m : Machine) : Prop where
  functions : ∀ (r : Nat) (c : Closure), m.closures[r]? = some c → c.Confined
  classes : ∀ (r : Nat) (c : Class), m.classes[r]? = some c → c.Confined

theorem Machine.Confined.of_same {m m' : Machine} (h : m.Confined)
    (closures : m'.closures = m.closures) (classes : m'.classes = m.classes) : m'.Confined where
  functions := by rw [closures]; exact h.functions
  classes := by rw [classes]; exact h.classes

inductive Exit.Quiet : Exit → Prop
  | failed (failure : Failure) : Exit.Quiet (.failed failure)
  | absent (absence : Absence) : Exit.Quiet (.absent absence)
  | exhausted : Exit.Quiet .exhausted

/-- The end of an operation that neither jumps nor returns, on a machine that is confined still. -/
def Settled (Q : α → Prop) : EStateM.Result Exit Machine α → Prop
  | .ok a m => m.Confined ∧ Q a
  | .error e m => m.Confined ∧ e.Quiet

/-- An operation that keeps a machine confined, and neither jumps nor returns. -/
def Settles (x : Run α) (Q : α → Prop) : Prop := ∀ m : Machine, m.Confined → Settled Q (x m)

def Any (_ : α) : Prop := True

namespace Settles

variable {x : Run α} {Q : α → Prop} {R : β → Prop}

theorem pure {a : α} (h : Q a) : Settles (Pure.pure a) Q := fun _ hm => ⟨hm, h⟩

theorem fail {line : Nat} {fault : Fault} : Settles (Run.fail line fault) Q :=
  fun _ hm => ⟨hm, .failed _⟩

theorem bind {f : α → Run β} (h : Settles x Q) (hf : ∀ a, Q a → Settles (f a) R) :
    Settles (x >>= f) R := by
  intro m hm
  have first := h m hm
  simp only [Bind.bind, EStateM.bind]
  generalize x m = r at first ⊢
  cases r with
  | ok a m => exact hf a first.2 m first.1
  | error e m => exact first

theorem of_same (h : ∀ m, match x m with
    | .ok a m' => m'.closures = m.closures ∧ m'.classes = m.classes ∧ Q a
    | .error e m' => m'.closures = m.closures ∧ m'.classes = m.classes ∧ e.Quiet) :
    Settles x Q := by
  intro m hm
  have same := h m
  generalize x m = r at same ⊢
  cases r with
  | ok a m => exact ⟨hm.of_same same.1 same.2.1, same.2.2⟩
  | error e m => exact ⟨hm.of_same same.1 same.2.1, same.2.2⟩

theorem ofExcept {line : Nat} (r : Except Fault α) : Settles (Run.ofExcept line r) Any := by
  cases r with
  | ok a => exact pure trivial
  | error fault => exact fail

theorem currentFrame : Settles Run.currentFrame Any := of_same fun _ => ⟨rfl, rfl, trivial⟩

theorem openFrame (parent : Nat) (bindings : Bindings Value) :
    Settles (Run.openFrame parent bindings) Any := of_same fun _ => ⟨rfl, rfl, trivial⟩

theorem defineIn (frame : Nat) (name : String) (v : Value) :
    Settles (Run.defineIn frame name v) Any := of_same fun _ => ⟨rfl, rfl, trivial⟩

theorem define (name : String) (v : Value) : Settles (Run.define name v) Any :=
  currentFrame.bind fun _ _ => defineIn _ name v

theorem load (name : Name) (site : Site) : Settles (Run.load name site) Any := by
  refine of_same fun m => ?_
  cases site with
  | global =>
    simp only [Run.load]
    cases m.frames.lookup? Machine.globals name.text with
    | some v => exact ⟨rfl, rfl, trivial⟩
    | none => exact ⟨rfl, rfl, .failed _⟩
  | local_ distance =>
    simp only [Run.load]
    cases m.frames.valueAt m.current distance name.text with
    | ok v => exact ⟨rfl, rfl, trivial⟩
    | error absence => exact ⟨rfl, rfl, .absent _⟩

theorem store (name : Name) (v : Value) (site : Site) : Settles (Run.store name v site) Any := by
  refine of_same fun m => ?_
  cases site with
  | global => exact ⟨rfl, rfl, trivial⟩
  | local_ distance =>
    simp only [Run.store]
    cases m.frames.frameAt m.current distance with
    | ok frame => exact ⟨rfl, rfl, trivial⟩
    | error absence => exact ⟨rfl, rfl, .absent _⟩

theorem readClock : Settles Run.readClock Any := of_same fun _ => ⟨rfl, rfl, trivial⟩

theorem makeInstance (ref : Nat) : Settles (Run.makeInstance ref) Any :=
  of_same fun _ => ⟨rfl, rfl, trivial⟩

theorem setField (ref : Nat) (name : String) (v : Value) : Settles (Run.setField ref name v) Any :=
  of_same fun _ => ⟨rfl, rfl, trivial⟩

theorem fieldOwner (object : Value) (name : Name) : Settles (Run.fieldOwner object name) Any := by
  refine of_same fun m => ?_
  simp only [Run.fieldOwner]
  cases m.instance? object with
  | some found => exact ⟨rfl, rfl, trivial⟩
  | none => exact ⟨rfl, rfl, .failed _⟩

theorem makeFunction {c : Closure} (h : c.Confined) : Settles (Run.makeFunction c) Any := by
  intro m hm
  refine ⟨⟨fun r c' hc => ?_, hm.classes⟩, trivial⟩
  simp only [Array.getElem?_push] at hc
  split at hc
  · cases hc
    exact h
  · exact hm.functions r c' hc

theorem makeClass {c : Class} (h : c.Confined) : Settles (Run.makeClass c) Any := by
  intro m hm
  refine ⟨⟨hm.functions, fun r c' hc => ?_⟩, trivial⟩
  simp only [Array.getElem?_push] at hc
  split at hc
  · cases hc
    exact h
  · exact hm.classes r c' hc

theorem method_confined {c : Class} (h : c.Confined) {name : String} {method : BoundMethod}
    (found : c.method? name = some method) :
    ∃ q, ∀ x ∈ codeNodes q method.params method.body, Scoped x := by
  obtain ⟨q, placedNodes⟩ := h
  have placed := methodPosition_find? q name c.methods
  rw [show c.methods.reverse.find? _ = some method from found, Option.map_eq_some_iff] at placed
  obtain ⟨⟨code, m⟩, hp, rfl⟩ := placed
  exact ⟨code, fun x hx => placedNodes x ((methodPosition_nodes hp).2 x hx)⟩

theorem bindMethod {c : Class} (h : c.Confined) {name : String} {method : BoundMethod}
    (found : c.method? name = some method) (receiver : Value) :
    Settles (Run.bindMethod c method receiver) fun closure =>
      closure.Confined ∧ closure.params = method.params :=
  (openFrame _ _).bind fun _ _ => pure ⟨method_confined h found, rfl⟩

theorem property (object : Value) (name : Name) : Settles (Run.property object name) Any := by
  intro m hm
  simp only [Run.property, read_bind]
  cases m.instance? object with
  | none => exact ⟨hm, .failed _⟩
  | some found =>
    obtain ⟨ref, i⟩ := found
    simp only
    cases i.fields.find? name.text with
    | some v => exact ⟨hm, trivial⟩
    | none =>
      cases hc : m.classes[i.class_]? with
      | none => exact ⟨hm, .failed _⟩
      | some c =>
        simp only [Option.bind_some]
        cases hf : c.method? name.text with
        | none => exact ⟨hm, .failed _⟩
        | some method =>
          exact ((bindMethod (hm.classes _ c hc) hf object).bind fun closure h =>
            makeFunction h.1) m hm

theorem callee (value : Value) (given line : Nat) :
    Settles (Run.callee value given line) fun c => c.Confined ∧ given = c.arity := by
  intro m hm
  have confined : ∀ c, m.callee? value = some c → c.Confined := by
    intro c hc
    cases value with
    | function ref =>
      obtain ⟨closure, hr, rfl⟩ := Option.map_eq_some_iff.mp hc
      exact hm.functions ref closure hr
    | class_ ref =>
      obtain ⟨k, hr, rfl⟩ := Option.map_eq_some_iff.mp hc
      exact hm.classes ref k hr
    | native n => cases hc; trivial
    | _ => cases hc
  simp only [Run.callee]
  cases hc : m.callee? value with
  | none => exact ⟨hm, .failed _⟩
  | some c =>
    simp only
    split
    · exact ⟨hm, confined c hc, ‹_›⟩
    · exact ⟨hm, .failed _⟩

end Settles

/-- A magnitude with the sign of its number is written as the whole number that the two are. -/
theorem Number.intText_signed (negative : Bool) (n : Nat) :
    Number.intText (if negative then -(n : Int) else n) =
      (if negative ∧ n ≠ 0 then "-" else "") ++ Number.digitsText n := by
  cases negative with
  | false => simp [Number.intText]
  | true =>
    cases n with
    | zero => simp [Number.intText]
    | succ n =>
      have below : -((n + 1 : Nat) : Int) < 0 := by omega
      have size : (-((n + 1 : Nat) : Int)).natAbs = n + 1 := by omega
      simp only [Number.intText, if_true, if_pos below, size]
      rw [if_pos ⟨trivial, Nat.succ_ne_zero n⟩]

/-- A whole number is finite, so it is converted. -/
theorem GuardedRun.numberText_eq (x : Float) :
    GuardedRun.numberText x = Pure.pure (Number.printed x) := by
  simp only [GuardedRun.numberText, Number.isWhole, Number.printed, Number.truncated?]
  cases x.isFinite with
  | false => rfl
  | true =>
    simp only [Number.Magnitude.whole?]
    by_cases whole : (Number.magnitude x).numerator % (Number.magnitude x).denominator = 0
    · simp only [whole, if_true, Option.isSome_some, Bool.true_and, Bool.not_true,
        Bool.false_eq_true, if_false]
      show (Pure.pure (Number.intText _) : GuardedRun String) = _
      rw [Number.intText_signed]
    · simp only [whole, if_false, Option.isSome_none, Bool.and_false, Bool.false_eq_true,
        Bool.not_true]

/-- Where there are as many arguments as parameters, none is missing. -/
theorem GuardedRun.bindFrom_eq (given : List Value) :
    ∀ (i : Nat) (params : List Name) (bindings : Bindings Value), i + params.length ≤ given.length →
      GuardedRun.bindFrom given i params bindings =
        Pure.pure (bindings.setAll ((params.map Name.text).zip (given.drop i)))
  | i, [], bindings, _ => rfl
  | i, param :: params, bindings, h => by
    have here : i < given.length := by simp at h; omega
    have others := bindFrom_eq given (i + 1) params (bindings.set param.text given[i])
      (by simp at h; omega)
    rw [GuardedRun.bindFrom, List.getElem?_eq_getElem here, List.drop_eq_getElem_cons here]
    exact others

theorem GuardedRun.method?_eq (x : Around) (v : Value) (name : String) (c : Class) :
    guarding.method? x v name c = (c.method? name).map fun method => (x, method) := rfl

theorem GuardedRun.property_eq (x : Around) (object : Value) (name : Name) :
    guarding.property x object name = GuardedRun.lift (Run.property object name) := by
  funext m
  simp only [Instrument.property, GuardedRun.lift, Run.property, read_bind, guarding]
  cases m.instance? object with
  | none => rfl
  | some found =>
    obtain ⟨ref, i⟩ := found
    simp only
    cases i.fields.find? name.text with
    | some v => rfl
    | none =>
      cases m.classes[i.class_]? with
      | none => rfl
      | some c =>
        simp only [pure_bind, Option.bind_some]
        cases c.method? name.text <;> rfl

/-- A guarded run ends as the run does. A jump is for the innermost of the loops and a returned
value for the innermost of the calls, of which there are so many around. -/
inductive Mirrored (calls loops : Nat) (inCall : Bool) (Q : α → Prop) :
    EStateM.Result GuardedExit Machine α → EStateM.Result Exit Machine α → Prop
  | ok {a m} (kept : m.Confined) (post : Q a) : Mirrored calls loops inCall Q (.ok a m) (.ok a m)
  | jumped {j m loop} (kept : m.Confined) (innermost : loop + 1 = loops) :
    Mirrored calls loops inCall Q (.error (.jumped j calls loop) m) (.error (.jumped j) m)
  | returned {v m} (kept : m.Confined) (inside : inCall = true) :
    Mirrored calls loops inCall Q (.error (.returned v calls) m) (.error (.returned v) m)
  | quiet {e m} (kept : m.Confined) (quiet : e.Quiet) :
    Mirrored calls loops inCall Q (.error (.ofExit e) m) (.error e m)

def Mirrors (calls loops : Nat) (inCall : Bool) (x : GuardedRun α) (y : Run α) (Q : α → Prop) :
    Prop :=
  ∀ m : Machine, m.Confined → Mirrored calls loops inCall Q (x m) (y m)

namespace Mirrors

variable {calls loops : Nat} {inCall : Bool} {x : GuardedRun α} {y : Run α} {Q : α → Prop}
  {R : β → Prop}

theorem pure {a : α} (h : Q a) : Mirrors calls loops inCall (Pure.pure a) (Pure.pure a) Q :=
  fun _ hm => .ok hm h

theorem bind {f : α → GuardedRun β} {g : α → Run β} (h : Mirrors calls loops inCall x y Q)
    (hf : ∀ a, Q a → Mirrors calls loops inCall (f a) (g a) R) :
    Mirrors calls loops inCall (x >>= f) (y >>= g) R := by
  intro m hm
  have first := h m hm
  simp only [Bind.bind, EStateM.bind]
  generalize x m = r at first ⊢
  generalize y m = r' at first ⊢
  cases first with
  | ok kept post => exact hf _ post _ kept
  | jumped kept innermost => exact .jumped kept innermost
  | returned kept inside => exact .returned kept inside
  | quiet kept quiet => exact .quiet kept quiet

/-- What neither jumps nor returns may stand in any loops and calls. -/
theorem anywhere (h : Mirrors calls 0 false x y Q) : Mirrors calls loops inCall x y Q := by
  intro m hm
  have he := h m hm
  generalize x m = r at he ⊢
  generalize y m = r' at he ⊢
  cases he with
  | ok kept post => exact .ok kept post
  | jumped kept innermost => cases innermost
  | returned kept inside => cases inside
  | quiet kept quiet => exact .quiet kept quiet

theorem exhausted :
    Mirrors calls loops inCall (GuardedRun.lift (Run.exit .exhausted)) (Run.exit .exhausted) Q :=
  fun _ hm => .quiet hm .exhausted

theorem lift (h : Settles y Q) : Mirrors calls loops inCall (GuardedRun.lift y) y Q := by
  intro m hm
  have settled := h m hm
  simp only [GuardedRun.lift]
  generalize y m = r at settled ⊢
  cases r with
  | ok a m => exact .ok settled.1 settled.2
  | error e m => exact .quiet settled.1 settled.2

theorem within (frame : Nat) (h : Mirrors calls loops inCall x y Q) :
    Mirrors calls loops inCall (guarding.within frame x) (Run.within frame y) Q := by
  intro m hm
  have inside := h { m with current := frame } (hm.of_same rfl rfl)
  simp only [Instrument.within, guarding, Run.within]
  generalize x _ = r at inside ⊢
  generalize y _ = r' at inside ⊢
  cases inside with
  | ok kept post => exact .ok (kept.of_same rfl rfl) post
  | jumped kept innermost => exact .jumped (kept.of_same rfl rfl) innermost
  | returned kept inside => exact .returned (kept.of_same rfl rfl) inside
  | quiet kept quiet => exact .quiet (kept.of_same rfl rfl) quiet

/-- The body of a call takes what is returned in it. The call neither jumps nor returns. -/
theorem returning {x : GuardedRun Unit} {y : Run Unit}
    (h : Mirrors (calls + 1) 0 true x y Any) :
    Mirrors calls 0 false (guarding.returning ⟨calls, loops⟩ x) (Run.returning y) Any := by
  intro m hm
  have body := h m hm
  simp only [Instrument.returning, guarding, Run.returning]
  generalize x m = r at body ⊢
  generalize y m = r' at body ⊢
  cases body with
  | ok kept post => exact .ok kept trivial
  | jumped kept innermost => cases innermost
  | returned kept inside =>
    simp only [if_true]
    exact .ok kept trivial
  | quiet kept quiet =>
    cases quiet with
    | failed failure => exact .quiet kept (.failed failure)
    | absent absence => exact .quiet kept (.absent absence)
    | exhausted => exact .quiet kept .exhausted

theorem goesOn {x : GuardedRun Unit} {y : Run Unit}
    (h : Mirrors calls (loops + 1) inCall x y Any) :
    Mirrors calls loops inCall (guarding.goesOn ⟨calls, loops + 1⟩ x) (Run.goesOn y) Any := by
  intro m hm
  have body := h m hm
  simp only [Instrument.goesOn, guarding, Run.goesOn]
  generalize x m = r at body ⊢
  generalize y m = r' at body ⊢
  cases body with
  | ok kept post => exact .ok kept trivial
  | @jumped j m loop kept innermost =>
    simp only [innermost, and_self, if_true]
    cases j <;> exact .ok kept trivial
  | returned kept inside => exact .returned kept inside
  | quiet kept quiet =>
    cases quiet with
    | failed failure => exact .quiet kept (.failed failure)
    | absent absence => exact .quiet kept (.absent absence)
    | exhausted => exact .quiet kept .exhausted

theorem continuing {x : GuardedRun Unit} {y : Run Unit} (h : Mirrors calls loops inCall x y Any) :
    Mirrors calls loops inCall (guarding.continuing ⟨calls, loops⟩ x) (Run.continuing y) Any := by
  intro m hm
  have body := h m hm
  simp only [Instrument.continuing, guarding, Run.continuing]
  generalize x m = r at body ⊢
  generalize y m = r' at body ⊢
  cases body with
  | ok kept post => exact .ok kept trivial
  | @jumped j m loop kept innermost =>
    simp only [innermost, and_self, if_true]
    cases j with
    | break_ => exact .jumped kept innermost
    | continue_ => exact .ok kept trivial
  | returned kept inside => exact .returned kept inside
  | quiet kept quiet =>
    cases quiet with
    | failed failure => exact .quiet kept (.failed failure)
    | absent absence => exact .quiet kept (.absent absence)
    | exhausted => exact .quiet kept .exhausted

theorem contained {x : GuardedRun Value} {y : Run Value} (h : Mirrors calls 0 false x y Any) :
    Mirrors calls 0 false (GuardedRun.contained x) y Any := by
  intro m hm
  have called := h m hm
  simp only [GuardedRun.contained]
  generalize x m = r at called ⊢
  generalize y m = r' at called ⊢
  cases called with
  | ok kept post => exact .ok kept trivial
  | jumped kept innermost => cases innermost
  | returned kept inside => cases inside
  | quiet kept quiet =>
    cases quiet with
    | failed failure => exact .quiet kept (.failed failure)
    | absent absence => exact .quiet kept (.absent absence)
    | exhausted => exact .quiet kept .exhausted

theorem jump {j : Jump} (h : loops ≠ 0) :
    Mirrors calls loops inCall (fun m => .error (guarding.jumped ⟨calls, loops⟩ j) m)
      (Run.exit (.jumped j)) Q := by
  obtain ⟨loop, rfl⟩ := Nat.exists_eq_succ_of_ne_zero h
  exact fun _ hm => .jumped hm rfl

theorem giveBack {v : Value} (h : calls ≠ 0) :
    Mirrors calls loops true (fun m => .error (guarding.returned ⟨calls, loops⟩ v) m)
      (Run.exit (.returned v)) Q := by
  obtain ⟨call, rfl⟩ := Nat.exists_eq_succ_of_ne_zero h
  exact fun _ hm => .returned hm rfl

theorem ofExcept (line : Nat) (r : Except Fault α) :
    Mirrors calls loops inCall (GuardedRun.lift (Run.ofExcept line r)) (Run.ofExcept line r) Any :=
  lift (.ofExcept r)

theorem property {x : Around} (object : Value) (name : Name) :
    Mirrors calls loops inCall (guarding.property x object name) (Run.property object name) Any := by
  rw [GuardedRun.property_eq]
  exact lift (.property object name)

/-- A divisor that is not zero has a quotient. -/
theorem applyBinary (op : BinaryOp) (line : Nat) (left right : Value) :
    Mirrors calls loops inCall (GuardedRun.applyBinary op line left right)
      (Run.ofExcept line (op.apply left right)) Any := by
  unfold GuardedRun.applyBinary
  split
  · rename_i a b
    simp only [GuardedRun.quotient, BinaryOp.apply, Value.onNumbers, Value.quotient, Number.ratio?]
    split
    · exact lift .fail
    · exact pure trivial
  · exact ofExcept line _

theorem print (v : Value) : Mirrors calls loops inCall (GuardedRun.print v) (Run.print v) Any := by
  intro m hm
  have kept : { m with output := m.output ++ m.text v ++ "\n" }.Confined := hm.of_same rfl rfl
  cases v with
  | number x =>
    simp only [GuardedRun.print, GuardedRun.numberText_eq]
    exact .ok kept trivial
  | _ => exact .ok kept trivial

end Mirrors

end Script
