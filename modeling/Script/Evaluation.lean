import Script.Machine
import Script.Arithmetic

/-! Running a bound program on the machine.
An evaluation ends with a value or with an exit: a jump, a returned value, a failure, a local that
is not bound yet, or fuel that ran out. The machine keeps what was done before the exit. Fuel bounds
the depth of the evaluation, counting each round of a loop as one step down; it stands for no
resource of the language. The number of functions that may still be entered inside one another is
the room, and entering one without room fails at the line of the call. -/
namespace Script

inductive Exit where
  | jumped (jump : Jump)
  | returned (value : Value)
  | failed (failure : Failure)
  | absent (absence : Absence)
  | exhausted
deriving Repr, DecidableEq

abbrev Run := EStateM Exit Machine

theorem read_bind {ε σ α : Type} (f : σ → EStateM ε σ α) (s : σ) : (get >>= f) s = f s s := rfl

end Script

namespace Script.Run

variable {α : Type}

def exit (e : Exit) : Run α := fun m => .error e m

def fail (line : Nat) (fault : Fault) : Run α := exit (.failed ⟨fault, line⟩)

def ofExcept (line : Nat) : Except Fault α → Run α
  | .ok a => pure a
  | .error fault => fail line fault

/-- Runs with another frame as the current one, and makes the old one current again however the
run ends. -/
def within (frame : Nat) (run : Run α) : Run α := fun m =>
  let current := m.current
  match run { m with current := frame } with
  | .ok a m => .ok a { m with current := current }
  | .error e m => .error e { m with current := current }

def openFrame (parent : Nat) (bindings : Bindings Value) : Run Nat := fun m =>
  .ok m.frames.next { m with frames := m.frames.extend parent bindings }

def currentFrame : Run Nat := fun m => .ok m.current m

def defineIn (frame : Nat) (name : String) (value : Value) : Run Unit := fun m =>
  .ok () { m with frames := m.frames.define frame name value }

def define (name : String) (value : Value) : Run Unit := do
  defineIn (← currentFrame) name value

def load (name : Name) : Site → Run Value
  | .local_ distance => fun m =>
    match m.frames.valueAt m.current distance name.text with
    | .ok v => .ok v m
    | .error absence => .error (.absent absence) m
  | .global => fun m =>
    match m.frames.lookup? Machine.globals name.text with
    | some v => .ok v m
    | none => fail name.line (.undefinedVariable name.text) m

/-- Assigns to a variable. A global need not exist. -/
def store (name : Name) (value : Value) : Site → Run Unit
  | .local_ distance => fun m =>
    match m.frames.frameAt m.current distance with
    | .ok frame => defineIn frame name.text value m
    | .error absence => .error (.absent absence) m
  | .global => defineIn Machine.globals name.text value

def print (v : Value) : Run Unit := fun m =>
  .ok () { m with output := m.output ++ m.text v ++ "\n" }

def readClock : Run Value := fun m =>
  .ok (.number (m.clock m.readings)) { m with readings := m.readings + 1 }

def makeFunction (closure : Closure) : Run Value := fun m =>
  .ok (.function m.closures.size) { m with closures := m.closures.push closure }

def makeClass (c : Class) : Run Value := fun m =>
  .ok (.class_ m.classes.size) { m with classes := m.classes.push c }

def makeInstance (class_ : Nat) : Run Value := fun m =>
  .ok (.instance_ m.instances.size) { m with instances := m.instances.push ⟨class_, []⟩ }

/-- A method of a class, in a frame in which the instance is bound. -/
def bindMethod (c : Class) (method : BoundMethod) (receiver : Value) : Run Closure := do
  let frame ← openFrame c.frame [(Keyword.this_.spelling, receiver)]
  pure
    { name := some method.name.text
      params := method.params
      body := method.body
      frame := frame
      isInitializer := method.name.text == initializerName }

/-- The value of a property: a field, else a method bound to the instance. -/
def property (object : Value) (name : Name) : Run Value := do
  let m ← get
  match m.instance? object with
  | none => fail name.line .propertyOfOther
  | some (_, i) =>
    match i.fields.find? name.text with
    | some v => pure v
    | none =>
      match (m.classes[i.class_]?).bind fun c => (c.method? name.text).map fun method => (c, method) with
      | some (c, method) => do
        let closure ← bindMethod c method object
        makeFunction closure
      | none => fail name.line (.undefinedProperty name.text)

/-- The reference of the instance whose field is to be set. -/
def fieldOwner (object : Value) (name : Name) : Run Nat := fun m =>
  match m.instance? object with
  | some (ref, _) => .ok ref m
  | none => fail name.line .fieldOfOther m

def setField (ref : Nat) (name : String) (value : Value) : Run Unit := fun m =>
  .ok () { m with
    instances := m.instances.modify ref fun i => { i with fields := i.fields.set name value } }

/-- The callee that a value is, if it takes so many arguments. -/
def callee (value : Value) (given line : Nat) : Run Machine.Callee := fun m =>
  match m.callee? value with
  | none => fail line .notCallable m
  | some c => if given = c.arity then .ok c m else fail line (.arity c.arity given) m

/-- A body gives the value it returns, or nil where it ends without. -/
def returning (run : Run Unit) : Run Value := fun m =>
  match run m with
  | .ok () m => .ok .nil m
  | .error (.returned v) m => .ok v m
  | .error e m => .error e m

/-- A jump back to the head of the loop ends the body only. -/
def continuing (run : Run Unit) : Run Unit := fun m =>
  match run m with
  | .error (.jumped .continue_) m => .ok () m
  | result => result

mutual

def evaluate (fuel room : Nat) (e : BoundExpr) : Run Value :=
  match fuel with
  | 0 => exit .exhausted
  | fuel + 1 =>
    match e with
    | .literal value => pure (.ofLiteral value)
    | .grouping inner => evaluate fuel room inner
    | .variable name site => load name site
    | .assign name site value => do
      let v ← evaluate fuel room value
      store name v site
      pure v
    | .this line site => load ⟨Keyword.this_.spelling, line⟩ site
    | .unary op line operand => do
      let v ← evaluate fuel room operand
      ofExcept line (op.apply v)
    | .binary left op line right => do
      let a ← evaluate fuel room left
      let b ← evaluate fuel room right
      ofExcept line (op.apply a b)
    | .logical left op _ right => do
      let a ← evaluate fuel room left
      match op, a.isTruthy with
      | .or, true => pure a
      | .and, false => pure a
      | _, _ => evaluate fuel room right
    | .ternary condition yes no => do
      let c ← evaluate fuel room condition
      if c.isTruthy then evaluate fuel room yes else evaluate fuel room no
    | .sequence earlier last => do
      let _ ← evaluate fuel room earlier
      evaluate fuel room last
    | .call f parenLine arguments => do
      let value ← evaluate fuel room f
      let given ← evaluateAll fuel room arguments
      let c ← callee value given.length parenLine
      call fuel room c given parenLine
    | .get object name => do
      let o ← evaluate fuel room object
      property o name
    | .set object name value => do
      let o ← evaluate fuel room object
      let ref ← fieldOwner o name
      let v ← evaluate fuel room value
      setField ref name.text v
      pure v
    | .function params body => do
      let frame ← currentFrame
      makeFunction ⟨none, params, body, frame, false⟩
termination_by structural fuel

def evaluateAll (fuel room : Nat) (es : List BoundExpr) : Run (List Value) :=
  match fuel with
  | 0 => exit .exhausted
  | fuel + 1 =>
    match es with
    | [] => pure []
    | e :: es => do
      let v ← evaluate fuel room e
      let vs ← evaluateAll fuel room es
      pure (v :: vs)
termination_by structural fuel

def call (fuel room : Nat) (c : Machine.Callee) (given : List Value) (line : Nat) : Run Value :=
  match fuel with
  | 0 => exit .exhausted
  | fuel + 1 =>
    match c with
    | .native .clock => readClock
    | .function closure => enter fuel room closure given line
    | .class_ ref c => do
      let made ← makeInstance ref
      match c.method? initializerName with
      | none => pure made
      | some method => do
        let closure ← bindMethod c method made
        let _ ← enter fuel room closure given line
        pure made
termination_by structural fuel

/-- Runs the body of a function in a frame of its own, which takes a place of the room. An
initializer gives its instance, however its body ends. -/
def enter (fuel room : Nat) (closure : Closure) (given : List Value) (line : Nat) : Run Value :=
  match fuel, room with
  | 0, _ => exit .exhausted
  | _ + 1, 0 => fail line .stackOverflow
  | fuel + 1, room + 1 => do
    let bindings := Bindings.setAll [] ((closure.params.map Name.text).zip given)
    let frame ← openFrame closure.frame bindings
    let v ← returning (within frame (executeAll fuel room closure.body))
    if closure.isInitializer then
      within closure.frame (load ⟨Keyword.this_.spelling, 0⟩ (.local_ 0))
    else pure v
termination_by structural fuel

def execute (fuel room : Nat) (s : BoundStmt) : Run Unit :=
  match fuel with
  | 0 => exit .exhausted
  | fuel + 1 =>
    match s with
    | .expression e => do
      let _ ← evaluate fuel room e
      pure ()
    | .print e => do
      let v ← evaluate fuel room e
      print v
    | .var name none => define name.text .nil
    | .var name (some e) => do
      let v ← evaluate fuel room e
      define name.text v
    | .block body => do
      let frame ← openFrame (← currentFrame) []
      within frame (executeAll fuel room body)
    | .step body increment => do
      let frame ← openFrame (← currentFrame) []
      within frame do
        continuing (execute fuel room body)
        let _ ← evaluate fuel room increment
        pure ()
    | .if_ condition yes no => do
      let c ← evaluate fuel room condition
      if c.isTruthy then execute fuel room yes
      else
        match no with
        | some no => execute fuel room no
        | none => pure ()
    | .while_ condition body => loop fuel room condition body
    | .jump jump _ => exit (.jumped jump)
    | .function name params body => do
      let frame ← currentFrame
      let f ← makeFunction ⟨some name.text, params, body, frame, false⟩
      define name.text f
    | .return_ _ none => exit (.returned .nil)
    | .return_ _ (some e) => do
      let v ← evaluate fuel room e
      exit (.returned v)
    | .class_ name methods => do
      let frame ← currentFrame
      let c ← makeClass ⟨name.text, methods, frame⟩
      define name.text c
termination_by structural fuel

def executeAll (fuel room : Nat) (ss : List BoundStmt) : Run Unit :=
  match fuel with
  | 0 => exit .exhausted
  | fuel + 1 =>
    match ss with
    | [] => pure ()
    | s :: ss => do
      execute fuel room s
      executeAll fuel room ss
termination_by structural fuel

/-- The rounds of a loop. A jump of the body that reaches the loop ends the round or the loop. -/
def loop (fuel room : Nat) (condition : BoundExpr) (body : BoundStmt) : Run Unit :=
  match fuel with
  | 0 => exit .exhausted
  | fuel + 1 => fun m =>
    match evaluate fuel room condition m with
    | .error e m => .error e m
    | .ok c m =>
      if c.isTruthy then
        match execute fuel room body m with
        | .ok () m => loop fuel room condition body m
        | .error (.jumped .continue_) m => loop fuel room condition body m
        | .error (.jumped .break_) m => .ok () m
        | .error e m => .error e m
      else .ok () m
termination_by structural fuel

end

end Script.Run
