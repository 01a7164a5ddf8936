import Script.Evaluation
import Script.Proofs.Lexical.Position

/-! Running a program with an instrument.
What a run is to be known for may need more than the run: at which place it is, what was known where
a function was made, which loop a jump is meant for. An instrument carries this along and does each
operation in its own way, by default as the run does. The evaluator is the same for all instruments,
and nothing but an operation of the instrument ever looks at what is known of a place. -/
namespace Script

open Lexical

def Exit.jump? : Exit → Option Jump
  | .jumped jump => some jump
  | _ => none

def Exit.value? : Exit → Option Value
  | .returned v => some v
  | _ => none

/-- The operations of a run over states `σ`, which ends with a value or with `ε`. Of the place where
it is, `χ` is known. -/
structure Instrument (χ ε σ : Type) where
  machine : σ → Machine
  put : Machine → σ → σ
  /-- How a run ends that ends so on the machine alone. -/
  exit : Exit → ε
  /-- The jump that the innermost loop at the place takes. -/
  jump? : χ → ε → Option Jump
  /-- The value that is returned to a call of the code at the place. -/
  value? : χ → ε → Option Value
  jumped : χ → Jump → ε := fun _ jump => exit (.jumped jump)
  returned : χ → Value → ε := fun _ v => exit (.returned v)
  -- what is known in the parts of a place
  child : Nat → χ → χ
  expression : χ → χ := fun x => x
  pending : Name → χ → χ := fun _ x => x
  declared : Name → χ → χ := fun _ x => x
  after : BoundStmt → χ → χ := fun _ x => x
  opened : List Name → χ → χ := fun _ x => x
  looping : χ → χ := fun x => x
  entered : List Name → List BoundStmt → χ → χ := fun _ _ x => x
  -- single operations
  lift : {α : Type} → Run α → EStateM ε σ α := fun run t =>
    match run (machine t) with
    | .ok a m => .ok a (put m t)
    | .error e m => .error (exit e) (put m t)
  load : χ → Use → Name → Site → EStateM ε σ Value := fun _ _ name site => lift (Run.load name site)
  store : χ → Name → Value → Site → EStateM ε σ Unit := fun _ name v site =>
    lift (Run.store name v site)
  define : Name → Value → EStateM ε σ Unit := fun name v => lift (Run.define name.text v)
  binary : BinaryOp → Nat → Value → Value → EStateM ε σ Value := fun op line a b =>
    lift (Run.ofExcept line (op.apply a b))
  print : Value → EStateM ε σ Unit := fun v => lift (Run.print v)
  openFrame : χ → List Name → List Name → Nat → Bindings Value → EStateM ε σ Nat :=
    fun _ _ _ parent bindings => lift (Run.openFrame parent bindings)
  makeFunction : χ → Closure → EStateM ε σ Value := fun _ c => lift (Run.makeFunction c)
  makeClass : χ → Class → EStateM ε σ Value := fun _ c => lift (Run.makeClass c)
  /-- What was known where a function or a class was made. -/
  madeAt : χ → Value → EStateM ε σ χ
  /-- The last method of a name, with what is known of its code once it is bound to a value. -/
  method? : χ → Value → String → Class → Option (χ × BoundMethod)
  bindMethod : χ → Class → BoundMethod → Value → EStateM ε σ Closure := fun _ c method v =>
    lift (Run.bindMethod c method v)
  arguments : List Name → List Value → EStateM ε σ (Bindings Value) := fun params given =>
    pure (.setAll [] ((params.map Name.text).zip given))
  /-- The parts of a round: the body and then the increment. -/
  part : Nat → BoundStmt → BoundExpr → EStateM ε σ BoundStmt := fun i body increment =>
    pure (if i = 0 then body else .expression increment)
  contained : EStateM ε σ Value → EStateM ε σ Value := fun run => run
  initialized : χ → Value → EStateM ε σ Unit := fun _ _ => pure ()

namespace Instrument

variable {χ ε σ α : Type} (I : Instrument χ ε σ)

def fail (line : Nat) (fault : Fault) : EStateM ε σ α := I.lift (Run.fail line fault)

def within (frame : Nat) (run : EStateM ε σ α) : EStateM ε σ α := fun t =>
  let back t' := I.put { I.machine t' with current := (I.machine t).current } t'
  match run (I.put { I.machine t with current := frame } t) with
  | .ok a t' => .ok a (back t')
  | .error e t' => .error e (back t')

def returning (x : χ) (run : EStateM ε σ Unit) : EStateM ε σ Value := fun t =>
  match run t with
  | .ok () t => .ok .nil t
  | .error e t =>
    match I.value? x e with
    | some v => .ok v t
    | none => .error e t

def continuing (x : χ) (run : EStateM ε σ Unit) : EStateM ε σ Unit := fun t =>
  match run t with
  | .ok () t => .ok () t
  | .error e t =>
    match I.jump? x e with
    | some .continue_ => .ok () t
    | _ => .error e t

def goesOn (x : χ) (run : EStateM ε σ Unit) : EStateM ε σ Bool := fun t =>
  match run t with
  | .ok () t => .ok true t
  | .error e t =>
    match I.jump? x e with
    | some .continue_ => .ok true t
    | some .break_ => .ok false t
    | none => .error e t

def property (x : χ) (object : Value) (name : Name) : EStateM ε σ Value := do
  let m := I.machine (← get)
  match m.instance? object with
  | none => I.fail name.line .propertyOfOther
  | some (_, i) =>
    match i.fields.find? name.text with
    | some v => pure v
    | none =>
      match m.classes[i.class_]? with
      | none => I.fail name.line (.undefinedProperty name.text)
      | some c => do
        let q ← I.madeAt x (.class_ i.class_)
        match I.method? q object name.text c with
        | some (code, method) => do
          let closure ← I.bindMethod q c method object
          I.makeFunction code closure
        | none => I.fail name.line (.undefinedProperty name.text)

def receiver (x : χ) (frame : Nat) : EStateM ε σ Value := do
  let v ← I.within frame (I.lift (Run.load ⟨Keyword.this_.spelling, 0⟩ (.local_ 0)))
  I.initialized x v
  pure v

theorem receiver_eq {x : χ} (h : I.initialized x = fun _ => pure ()) (frame : Nat) :
    receiver I x frame =
      within I frame (I.lift (Run.load ⟨Keyword.this_.spelling, 0⟩ (.local_ 0))) := by
  simp only [receiver, h, pure_bind, bind_pure]

mutual

def evaluate (fuel room : Nat) (x : χ) (e : BoundExpr) : EStateM ε σ Value :=
  match fuel with
  | 0 => I.lift (Run.exit .exhausted)
  | fuel + 1 =>
    match e with
    | .literal value => pure (.ofLiteral value)
    | .grouping inner => evaluate fuel room (I.child 0 x) inner
    | .variable name site => I.load x .variable name site
    | .assign name site value => do
      let v ← evaluate fuel room (I.child 0 x) value
      I.store x name v site
      pure v
    | .this line site => I.load x .this ⟨Keyword.this_.spelling, line⟩ site
    | .unary op line operand => do
      let v ← evaluate fuel room (I.child 0 x) operand
      I.lift (Run.ofExcept line (op.apply v))
    | .binary left op line right => do
      let a ← evaluate fuel room (I.child 0 x) left
      let b ← evaluate fuel room (I.child 1 x) right
      I.binary op line a b
    | .logical left op _ right => do
      let a ← evaluate fuel room (I.child 0 x) left
      match op, a.isTruthy with
      | .or, true => pure a
      | .and, false => pure a
      | _, _ => evaluate fuel room (I.child 1 x) right
    | .ternary condition yes no => do
      let c ← evaluate fuel room (I.child 0 x) condition
      if c.isTruthy then evaluate fuel room (I.child 1 x) yes
      else evaluate fuel room (I.child 2 x) no
    | .sequence earlier last => do
      let _ ← evaluate fuel room (I.child 0 x) earlier
      evaluate fuel room (I.child 1 x) last
    | .call f parenLine arguments => do
      let value ← evaluate fuel room (I.child 0 x) f
      let given ← evaluateAll fuel room (I.child 1 x) arguments
      let c ← I.lift (Run.callee value given.length parenLine)
      let q ← I.madeAt x value
      I.contained (call fuel room q c given parenLine)
    | .get object name => do
      let o ← evaluate fuel room (I.child 0 x) object
      property I x o name
    | .set object name value => do
      let o ← evaluate fuel room (I.child 0 x) object
      let ref ← I.lift (Run.fieldOwner o name)
      let v ← evaluate fuel room (I.child 1 x) value
      I.lift (Run.setField ref name.text v)
      pure v
    | .function params body => do
      let frame ← I.lift Run.currentFrame
      I.makeFunction (I.child 0 x) ⟨none, params, body, frame, false⟩
termination_by structural fuel

def evaluateAll (fuel room : Nat) (x : χ) (es : List BoundExpr) : EStateM ε σ (List Value) :=
  match fuel with
  | 0 => I.lift (Run.exit .exhausted)
  | fuel + 1 =>
    match es with
    | [] => pure []
    | e :: es => do
      let v ← evaluate fuel room (I.child 0 x) e
      let vs ← evaluateAll fuel room (I.child 1 x) es
      pure (v :: vs)
termination_by structural fuel

def call (fuel room : Nat) (q : χ) (c : Machine.Callee) (given : List Value) (line : Nat) :
    EStateM ε σ Value :=
  match fuel with
  | 0 => I.lift (Run.exit .exhausted)
  | fuel + 1 =>
    match c with
    | .native .clock => I.lift Run.readClock
    | .function closure => enter fuel room q closure given line
    | .class_ ref c => do
      let made ← I.lift (Run.makeInstance ref)
      match I.method? q made initializerName c with
      | none => pure made
      | some (code, method) => do
        let closure ← I.bindMethod q c method made
        let _ ← enter fuel room code closure given line
        pure made
termination_by structural fuel

def enter (fuel room : Nat) (q : χ) (closure : Closure) (given : List Value) (line : Nat) :
    EStateM ε σ Value :=
  match fuel, room with
  | 0, _ => I.lift (Run.exit .exhausted)
  | _ + 1, 0 => fail I line .stackOverflow
  | fuel + 1, room + 1 => do
    let bindings ← I.arguments closure.params given
    let frame ← I.openFrame q closure.params (declaredNames closure.body) closure.frame bindings
    let v ← returning I q (within I frame
      (executeAll fuel room (I.child 0 (I.entered closure.params closure.body q)) closure.body))
    if closure.isInitializer then receiver I q closure.frame else pure v
termination_by structural fuel

def execute (fuel room : Nat) (x : χ) (s : BoundStmt) : EStateM ε σ Unit :=
  match fuel with
  | 0 => I.lift (Run.exit .exhausted)
  | fuel + 1 =>
    match s with
    | .expression e => do
      let _ ← evaluate fuel room (I.child 0 (I.expression x)) e
      pure ()
    | .print e => do
      let v ← evaluate fuel room (I.child 0 (I.expression x)) e
      I.print v
    | .var name none => I.define name .nil
    | .var name (some e) => do
      let v ← evaluate fuel room (I.child 0 (I.expression (I.pending name x))) e
      I.define name v
    | .block body => do
      let frame ← I.openFrame x [] (declaredNames body) (← I.lift Run.currentFrame) []
      within I frame (executeAll fuel room (I.child 0 (I.opened (declaredNames body) x)) body)
    | .step body increment => do
      let frame ← I.openFrame x [] [] (← I.lift Run.currentFrame) []
      within I frame do
        let first ← I.part 0 body increment
        continuing I x (execute fuel room (I.child 0 (I.opened [] x)) first)
        match ← I.part 1 body increment with
        | .expression e => do
          let _ ← evaluate fuel room (I.child 1 (I.expression (I.opened [] x))) e
          pure ()
        | second => execute fuel room (I.child 1 (I.opened [] x)) second
    | .if_ condition yes no => do
      let c ← evaluate fuel room (I.child 0 (I.expression x)) condition
      if c.isTruthy then execute fuel room (I.child 1 x) yes
      else
        match no with
        | some no => execute fuel room (I.child 2 x) no
        | none => pure ()
    | .while_ condition body => loop fuel room x condition body
    | .jump jump _ => fun t => .error (I.jumped x jump) t
    | .function name params body => do
      let frame ← I.lift Run.currentFrame
      let f ← I.makeFunction (I.child 0 (I.declared name x))
        ⟨some name.text, params, body, frame, false⟩
      I.define name f
    | .return_ _ none => fun t => .error (I.returned x .nil) t
    | .return_ _ (some e) => do
      let v ← evaluate fuel room (I.child 0 (I.expression x)) e
      fun t => .error (I.returned x v) t
    | .class_ name methods => do
      let frame ← I.lift Run.currentFrame
      let c ← I.makeClass (I.declared name x) ⟨name.text, methods, frame⟩
      I.define name c
termination_by structural fuel

def executeAll (fuel room : Nat) (x : χ) (ss : List BoundStmt) : EStateM ε σ Unit :=
  match fuel with
  | 0 => I.lift (Run.exit .exhausted)
  | fuel + 1 =>
    match ss with
    | [] => pure ()
    | s :: ss => do
      execute fuel room (I.child 0 x) s
      executeAll fuel room (I.child 1 (I.after s x)) ss
termination_by structural fuel

def loop (fuel room : Nat) (x : χ) (condition : BoundExpr) (body : BoundStmt) : EStateM ε σ Unit :=
  match fuel with
  | 0 => I.lift (Run.exit .exhausted)
  | fuel + 1 => do
    let c ← evaluate fuel room (I.child 0 (I.expression x)) condition
    if c.isTruthy then
      if ← goesOn I (I.looping x) (execute fuel room (I.child 1 (I.looping x)) body) then
        loop fuel room x condition body
termination_by structural fuel

end

end Instrument

end Script
