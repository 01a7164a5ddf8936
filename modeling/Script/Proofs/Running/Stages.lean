import Mathlib.Logic.Relation
import Script.Evaluation
import Script.Proofs.Result

/-! The stages of a run.
A stage is a job with the fuel, the room and the machine that it begins with. -/
namespace Script

/-- What one of the functions of the evaluation is asked for. -/
inductive Job where
  | evaluate (e : BoundExpr)
  | evaluateAll (es : List BoundExpr)
  | call (c : Machine.Callee) (given : List Value) (line : Nat)
  | enter (closure : Closure) (given : List Value) (line : Nat)
  | execute (s : BoundStmt)
  | executeAll (ss : List BoundStmt)
  | loop (condition : BoundExpr) (body : BoundStmt)

structure Stage where
  job : Job
  fuel : Nat
  room : Nat
  machine : Machine

def Machine.opened (m : Machine) (parent : Nat) (bindings : Bindings Value) : Machine :=
  { m with frames := m.frames.extend parent bindings, current := m.frames.next }

namespace Run

/-- With one more fuel, and on the first machine, the first job comes to the second on the second
machine. -/
inductive Part (fuel room : Nat) (m : Machine) : Job → Job → Machine → Prop
  | grouping {inner} : Part fuel room m (.evaluate (.grouping inner)) (.evaluate inner) m
  | assigned {name site value} :
    Part fuel room m (.evaluate (.assign name site value)) (.evaluate value) m
  | operand {op line operand} :
    Part fuel room m (.evaluate (.unary op line operand)) (.evaluate operand) m
  | left {left op line right} :
    Part fuel room m (.evaluate (.binary left op line right)) (.evaluate left) m
  | right {left op line right a m'} (before : evaluate fuel room left m = .ok a m') :
    Part fuel room m (.evaluate (.binary left op line right)) (.evaluate right) m'
  | test {left op line right} :
    Part fuel room m (.evaluate (.logical left op line right)) (.evaluate left) m
  | orElse {left line right a m'} (before : evaluate fuel room left m = .ok a m')
    (falsy : a.isTruthy = false) :
    Part fuel room m (.evaluate (.logical left .or line right)) (.evaluate right) m'
  | andThen {left line right a m'} (before : evaluate fuel room left m = .ok a m')
    (truthy : a.isTruthy = true) :
    Part fuel room m (.evaluate (.logical left .and line right)) (.evaluate right) m'
  | choice {condition yes no} :
    Part fuel room m (.evaluate (.ternary condition yes no)) (.evaluate condition) m
  | yes {condition yes no c m'} (before : evaluate fuel room condition m = .ok c m')
    (truthy : c.isTruthy = true) :
    Part fuel room m (.evaluate (.ternary condition yes no)) (.evaluate yes) m'
  | no {condition yes no c m'} (before : evaluate fuel room condition m = .ok c m')
    (falsy : c.isTruthy = false) :
    Part fuel room m (.evaluate (.ternary condition yes no)) (.evaluate no) m'
  | earlier {earlier last} :
    Part fuel room m (.evaluate (.sequence earlier last)) (.evaluate earlier) m
  | last {earlier last a m'} (before : evaluate fuel room earlier m = .ok a m') :
    Part fuel room m (.evaluate (.sequence earlier last)) (.evaluate last) m'
  | callee {f line arguments} :
    Part fuel room m (.evaluate (.call f line arguments)) (.evaluate f) m
  | arguments {f line arguments value m'} (before : evaluate fuel room f m = .ok value m') :
    Part fuel room m (.evaluate (.call f line arguments)) (.evaluateAll arguments) m'
  | called {f line arguments value given c m₁ m₂ m₃}
    (before : evaluate fuel room f m = .ok value m₁)
    (passed : evaluateAll fuel room arguments m₁ = .ok given m₂)
    (found : Run.callee value given.length line m₂ = .ok c m₃) :
    Part fuel room m (.evaluate (.call f line arguments)) (.call c given line) m₃
  | object {object name} :
    Part fuel room m (.evaluate (.get object name)) (.evaluate object) m
  | owner {object name value} :
    Part fuel room m (.evaluate (.set object name value)) (.evaluate object) m
  | value {object name value o ref m₁ m₂} (before : evaluate fuel room object m = .ok o m₁)
    (found : fieldOwner o name m₁ = .ok ref m₂) :
    Part fuel room m (.evaluate (.set object name value)) (.evaluate value) m₂
  | argument {e es} : Part fuel room m (.evaluateAll (e :: es)) (.evaluate e) m
  | others {e es v m'} (before : evaluate fuel room e m = .ok v m') :
    Part fuel room m (.evaluateAll (e :: es)) (.evaluateAll es) m'
  | function {closure given line} :
    Part fuel room m (.call (.function closure) given line) (.enter closure given line) m
  | initializer {ref c given line made method closure m₁ m₂}
    (creation : makeInstance ref m = .ok made m₁)
    (found : c.method? initializerName = some method)
    (bound : bindMethod c method made m₁ = .ok closure m₂) :
    Part fuel room m (.call (.class_ ref c) given line) (.enter closure given line) m₂
  | expression {e} : Part fuel room m (.execute (.expression e)) (.evaluate e) m
  | print {e} : Part fuel room m (.execute (.print e)) (.evaluate e) m
  | initial {name e} : Part fuel room m (.execute (.var name (some e))) (.evaluate e) m
  | block {body} :
    Part fuel room m (.execute (.block body)) (.executeAll body) (m.opened m.current [])
  | round {body increment} :
    Part fuel room m (.execute (.step body increment)) (.execute body) (m.opened m.current [])
  | increment {body increment m'}
    (before : continuing (execute fuel room body) (m.opened m.current []) = .ok () m') :
    Part fuel room m (.execute (.step body increment)) (.evaluate increment) m'
  | condition {condition yes no} :
    Part fuel room m (.execute (.if_ condition yes no)) (.evaluate condition) m
  | then_ {condition yes no c m'} (before : evaluate fuel room condition m = .ok c m')
    (truthy : c.isTruthy = true) :
    Part fuel room m (.execute (.if_ condition yes no)) (.execute yes) m'
  | else_ {condition yes no c m'} (before : evaluate fuel room condition m = .ok c m')
    (falsy : c.isTruthy = false) :
    Part fuel room m (.execute (.if_ condition yes (some no))) (.execute no) m'
  | while_ {condition body} :
    Part fuel room m (.execute (.while_ condition body)) (.loop condition body) m
  | returned {line e} : Part fuel room m (.execute (.return_ line (some e))) (.evaluate e) m
  | first {s ss} : Part fuel room m (.executeAll (s :: ss)) (.execute s) m
  | rest {s ss m'} (before : execute fuel room s m = .ok () m') :
    Part fuel room m (.executeAll (s :: ss)) (.executeAll ss) m'
  | head {condition body} : Part fuel room m (.loop condition body) (.evaluate condition) m
  | body {condition body c m'} (before : evaluate fuel room condition m = .ok c m')
    (truthy : c.isTruthy = true) : Part fuel room m (.loop condition body) (.execute body) m'
  | again {condition body c m₁ m₂} (before : evaluate fuel room condition m = .ok c m₁)
    (truthy : c.isTruthy = true)
    (ended : continuing (execute fuel room body) m₁ = .ok () m₂) :
    Part fuel room m (.loop condition body) (.loop condition body) m₂

end Run

namespace Stage

/-- Entering a function takes a place of the room. Every other part has the room of the whole. -/
inductive Comes : Stage → Stage → Prop
  | part {fuel room m job job' m'} (part : Run.Part fuel room m job job' m') :
    Comes ⟨job, fuel + 1, room, m⟩ ⟨job', fuel, room, m'⟩
  | enter {fuel room closure given line m} :
    Comes ⟨.enter closure given line, fuel + 1, room + 1, m⟩
      ⟨.executeAll closure.body, fuel, room,
        m.opened closure.frame (Bindings.setAll [] ((closure.params.map Name.text).zip given))⟩

/-- The stage is executed in the course of the other one, or is that one. -/
def Reaches : Stage → Stage → Prop := Relation.ReflTransGen Comes

def after (S : Stage) : Machine :=
  match S.job with
  | .evaluate e => endState (Run.evaluate S.fuel S.room e S.machine)
  | .evaluateAll es => endState (Run.evaluateAll S.fuel S.room es S.machine)
  | .call c given line => endState (Run.call S.fuel S.room c given line S.machine)
  | .enter closure given line => endState (Run.enter S.fuel S.room closure given line S.machine)
  | .execute s => endState (Run.execute S.fuel S.room s S.machine)
  | .executeAll ss => endState (Run.executeAll S.fuel S.room ss S.machine)
  | .loop condition body => endState (Run.loop S.fuel S.room condition body S.machine)

end Stage

end Script
