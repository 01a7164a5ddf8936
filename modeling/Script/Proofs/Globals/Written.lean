import Script.Proofs.Globals.Standing

/-! What a run writes to the globals.
Of every stage and every name it is known, when the stage has ended, that the global is as it was or
that a stage reached on the way wrote the value that it has: a declaration that was executed in the
globals, or an assignment to the global. -/
namespace Script

open Lexical

def Machine.global? (m : Machine) (name : String) : Option Value :=
  (m.frames.bindings Machine.globals).find? name

namespace Stage

/-- The stage is a declaration of the name in the globals, or an assignment to the global of the
name, and it ended with the value there. -/
inductive Writes (S : Stage) (name : String) (v : Value) : Prop
  | declaration {s n m} (job : S.job = .execute s) (declared : declared? s = some n)
    (key : n.text = name) (top : S.machine.current = Machine.globals)
    (ends : Run.execute S.fuel S.room s S.machine = .ok () m) (written : m.global? name = some v)
  | assignment {n value m} (job : S.job = .evaluate (.assign n .global value)) (key : n.text = name)
    (ends : Run.evaluate S.fuel S.room (.assign n .global value) S.machine = .ok v m)
    (written : m.global? name = some v)

/-- From one machine to another every global that changes is written by a stage that is reached, and
is what the last of those wrote. -/
def Explains (S : Stage) (m m' : Machine) : Prop :=
  ∀ name, m'.global? name = m.global? name ∨
    ∃ W v, S.Reaches W ∧ W.Writes name v ∧ m'.global? name = some v

def Accounts {α : Type} (S : Stage) (x : Run α) (m : Machine) : Prop :=
  S.Explains m (endState (x m))

variable {S T : Stage} {m m' m'' : Machine} {α β : Type} {x : Run α}

namespace Explains

theorem same (h : m'.frames.bindings Machine.globals = m.frames.bindings Machine.globals) :
    S.Explains m m' := fun name => .inl (congrArg (Bindings.find? name) h)

theorem refl (m : Machine) : S.Explains m m := same rfl

/-- A name that the second part leaves alone was written in the first one, if at all. -/
theorem trans (h : S.Explains m m') (h' : S.Explains m' m'') : S.Explains m m'' := by
  intro name
  rcases h' name with kept | written
  · rcases h name with same | ⟨W, v, reached, writes, now⟩
    · exact .inl (kept.trans same)
    · exact .inr ⟨W, v, reached, writes, kept.trans now⟩
  · exact .inr written

theorem part (c : S.Comes T) (h : T.Explains m m') : S.Explains m m' := fun name =>
  (h name).imp_right fun ⟨W, v, reached, writes⟩ => ⟨W, v, .head c reached, writes⟩

theorem extend (root : Machine.globals < m.frames.next) (parent : Nat) (bindings : Bindings Value) :
    S.Explains m { m with frames := m.frames.extend parent bindings } := by
  refine same ?_
  rw [Frames.bindings_extend, if_neg (Nat.ne_of_lt root)]

theorem elsewhere {frame : Nat} (apart : frame ≠ Machine.globals) (name : String) (v : Value) :
    S.Explains m { m with frames := m.frames.define frame name v } := by
  intro key
  refine .inl ?_
  rw [Machine.global?, Frames.find?_define, if_neg fun h => apart h.1]
  rfl

/-- Binding a global is what the stage itself writes. -/
theorem own {name : String} {v : Value} (root : Machine.globals < m.frames.next)
    (bound : m' = { m with frames := m.frames.define Machine.globals name v })
    (writes : m'.global? name = some v → S.Writes name v) : S.Explains m m' := by
  subst bound
  have bound := Frames.find?_define m.frames Machine.globals name v Machine.globals
  intro key
  by_cases hk : key = name
  · subst hk
    have now := (bound key).trans (if_pos ⟨rfl, root, rfl⟩)
    exact .inr ⟨S, v, .refl, writes now, now⟩
  · exact .inl ((bound key).trans (if_neg fun h => hk h.2.2))

end Explains

namespace Accounts

theorem pure {a : α} : S.Accounts (Pure.pure a) m := .refl m

theorem error {e : Exit} : S.Accounts (Run.exit e : Run α) m := .refl m

theorem bind {f : α → Run β} (h : S.Accounts x m)
    (hf : ∀ a m', x m = .ok a m' → S.Accounts (f a) m') : S.Accounts (x >>= f) m :=
  endState_bind (R := S.Explains) .trans h hf

theorem idle (h : (endState (x m)).frames = m.frames) : S.Accounts x m :=
  .same (congrArg (Frames.bindings · Machine.globals) h)

theorem ofExcept (line : Nat) (r : Except Fault α) : S.Accounts (Run.ofExcept line r) m := by
  cases r with
  | ok a => exact .pure
  | error fault => exact .error

theorem load (name : Name) (site : Site) : S.Accounts (Run.load name site) m :=
  idle (by rw [Run.load_end])

theorem fieldOwner (object : Value) (name : Name) : S.Accounts (Run.fieldOwner object name) m := by
  simp only [Accounts, Run.fieldOwner]
  cases m.instance? object <;> exact .refl m

theorem callee (value : Value) (given line : Nat) : S.Accounts (Run.callee value given line) m := by
  simp only [Accounts, Run.callee]
  cases m.callee? value with
  | none => exact .refl m
  | some c =>
    simp only
    split <;> exact .refl m

theorem bindMethod (root : Machine.globals < m.frames.next) (c : Class) (method : BoundMethod)
    (receiver : Value) : S.Accounts (Run.bindMethod c method receiver) m := .extend root _ _

theorem property (root : Machine.globals < m.frames.next) (object : Value) (name : Name) :
    S.Accounts (Run.property object name) m := by
  simp only [Accounts, Run.property, read_bind]
  cases m.instance? object with
  | none => exact .refl m
  | some found =>
    simp only
    cases found.2.fields.find? name.text with
    | some v => exact .refl m
    | none =>
      cases (m.classes[found.2.class_]?).bind fun c =>
        (c.method? name.text).map fun method => (c, method) with
      | none => exact .refl m
      | some method =>
        exact bind (bindMethod root method.1 method.2 object) fun closure _ _ => .same rfl

theorem within {frame : Nat} (h : S.Accounts x { m with current := frame }) :
    S.Accounts (Run.within frame x) m := by
  simp only [Accounts, Run.within] at h ⊢
  generalize x _ = r at h ⊢
  cases r <;> exact h

theorem handled {handle : Run Unit → Run α} (handler : Run.Handler handle) {x : Run Unit}
    (h : S.Accounts x m) : S.Accounts (handle x) m := by
  rwa [Accounts, handler.ends]

theorem opened (root : Machine.globals < m.frames.next)
    (h : S.Accounts x (m.opened m.current [])) :
    S.Accounts (do
      let frame ← Run.openFrame (← Run.currentFrame) []
      Run.within frame x) m := by
  have first : S.Explains m { m with frames := m.frames.extend m.current [] } := .extend root _ _
  exact first.trans (within (m := { m with frames := m.frames.extend m.current [] }) h)

/-- A declaration writes to the globals only where those are current. -/
theorem define {s : BoundStmt} {n : Name} {v : Value} (root : Machine.globals < m.frames.next)
    (job : S.job = .execute s) (declared : declared? s = some n)
    (current : m.current = S.machine.current)
    (ends : Run.execute S.fuel S.room s S.machine = Run.define n.text v m) :
    S.Accounts (Run.define n.text v) m := by
  by_cases top : m.current = Machine.globals
  · have here : Run.define n.text v m =
        .ok () { m with frames := m.frames.define Machine.globals n.text v } := by
      rw [← top]
      rfl
    rw [Accounts, here]
    exact .own root rfl fun written =>
      .declaration job declared rfl (current.symm.trans top) (ends.trans here) written
  · exact .elsewhere top n.text v

end Accounts

structure Parts (S : Stage) (fuel : Nat) : Prop where
  evaluate : ∀ {e m}, Run.Part fuel S.room S.machine S.job (.evaluate e) m →
    S.Accounts (Run.evaluate fuel S.room e) m
  evaluateAll : ∀ {es m}, Run.Part fuel S.room S.machine S.job (.evaluateAll es) m →
    S.Accounts (Run.evaluateAll fuel S.room es) m
  call : ∀ {c given line m}, Run.Part fuel S.room S.machine S.job (.call c given line) m →
    S.Accounts (Run.call fuel S.room c given line) m
  enter : ∀ {c given line m}, Run.Part fuel S.room S.machine S.job (.enter c given line) m →
    S.Accounts (Run.enter fuel S.room c given line) m
  execute : ∀ {s m}, Run.Part fuel S.room S.machine S.job (.execute s) m →
    S.Accounts (Run.execute fuel S.room s) m
  executeAll : ∀ {ss m}, Run.Part fuel S.room S.machine S.job (.executeAll ss) m →
    S.Accounts (Run.executeAll fuel S.room ss) m
  loop : ∀ {condition body m}, Run.Part fuel S.room S.machine S.job (.loop condition body) m →
    S.Accounts (Run.loop fuel S.room condition body) m

section

open Standing Run

variable {G : Position × Node Site → Prop} {fuel room : Nat} {p : Position}

theorem explains_evaluate {e : BoundExpr} (known : Known G m) (at_ : At p m)
    (good : ∀ n ∈ exprNodes p e, (upkeep G).Good n)
    (parts : Parts ⟨.evaluate e, fuel + 1, room, m⟩ fuel) :
    Accounts ⟨.evaluate e, fuel + 1, room, m⟩ (Run.evaluate (fuel + 1) room e) m := by
  cases e with
  | literal value => exact .pure
  | grouping inner => exact parts.evaluate .grouping
  | «variable» name site => exact .load name site
  | assign name site value =>
    refine .bind (parts.evaluate .assigned) fun v m' before => .bind ?_ fun _ _ _ => .pure
    have carried := Carried.evaluate (p := p.child 0) known at_
      (fun n hn => good n (by simp [exprNodes, hn])) before
    cases site with
    | global =>
      refine .own carried.known.root rfl fun written => .assignment rfl rfl ?_ written
      simp only [Run.evaluate, Bind.bind, EStateM.bind, before]
      rfl
    | local_ distance =>
      have isScoped : .local_ distance = p.site name.text :=
        (good (p, .expr (.assign name (.local_ distance) value)) (by simp [exprNodes])).1.isScoped
      simp only [Accounts, store, Frames.frameAt]
      cases found : m'.frames.ancestor? m'.current distance with
      | none => exact .refl m'
      | some frame =>
        exact .elsewhere ((carried.at_ at_).ancestor_ne (p.site_near isScoped.symm) found) _ v
  | this line site => exact .load _ site
  | unary op line operand => exact .bind (parts.evaluate .operand) fun v _ _ => .ofExcept line _
  | binary left op line right =>
    exact .bind (parts.evaluate .left) fun a _ before => .bind (parts.evaluate (.right before))
      fun b _ _ => .ofExcept line _
  | logical left op line right =>
    refine .bind (parts.evaluate .test) fun a m' before => ?_
    cases op <;> cases truth : a.isTruthy
    · exact .pure
    · exact parts.evaluate (.andThen before truth)
    · exact parts.evaluate (.orElse before truth)
    · exact .pure
  | ternary condition yes no =>
    refine .bind (parts.evaluate .choice) fun c m' before => ?_
    cases truth : c.isTruthy with
    | true => exact parts.evaluate (.yes before truth)
    | false => exact parts.evaluate (.no before truth)
  | sequence earlier last =>
    exact .bind (parts.evaluate .earlier) fun _ _ before => parts.evaluate (.last before)
  | call f line arguments =>
    exact .bind (parts.evaluate .callee) fun value _ before =>
      .bind (parts.evaluateAll (.arguments before)) fun given _ passed =>
        .bind (.callee value given.length line) fun c _ found =>
          parts.call (.called before passed found)
  | get object name =>
    refine .bind (parts.evaluate .object) fun o m' before => .property ?_ o name
    exact (Carried.evaluate (p := p.child 0) known at_
      (fun n hn => good n (by simp [exprNodes, hn])) before).known.root
  | set object name value =>
    exact .bind (parts.evaluate .owner) fun o _ before => .bind (.fieldOwner o name)
      fun ref _ found => .bind (parts.evaluate (.value before found)) fun v _ _ =>
        .bind (.idle rfl) fun _ _ _ => .pure
  | function params body => exact .idle rfl

theorem explains_execute {s : BoundStmt} (known : Known G m) (at_ : At p m)
    (good : ∀ n ∈ stmtNodes p s, (upkeep G).Good n)
    (parts : Parts ⟨.execute s, fuel + 1, room, m⟩ fuel) :
    Accounts ⟨.execute s, fuel + 1, room, m⟩ (Run.execute (fuel + 1) room s) m := by
  cases s with
  | expression e => exact .bind (parts.evaluate .expression) fun _ _ _ => .pure
  | print e => exact .bind (parts.evaluate .print) fun _ _ _ => .idle rfl
  | var name initial =>
    cases initial with
    | none => exact .define known.root rfl rfl rfl rfl
    | some e =>
      refine .bind (parts.evaluate .initial) fun v m' before => ?_
      have here : At ((p.pend name).child 0) m := by
        rw [At, Position.child, p.depth_pend name]
        exact at_
      have carried := Carried.evaluate known here (fun n hn => good n (by simp [stmtNodes, hn]))
        before
      refine .define carried.known.root rfl rfl carried.current ?_
      simp only [Run.execute, Bind.bind, EStateM.bind, before]
  | block body => exact .opened known.root (parts.executeAll .block)
  | step body increment =>
    have round := Accounts.handled Run.continuing_handler (parts.execute .round)
    exact .opened known.root <| .bind round fun _ _ before =>
      .bind (parts.evaluate (.increment before)) fun _ _ _ => .pure
  | if_ condition yes no =>
    refine .bind (parts.evaluate .condition) fun c m' before => ?_
    cases truth : c.isTruthy with
    | true => exact parts.execute (.then_ before truth)
    | false =>
      cases no with
      | none => exact .pure
      | some no => exact parts.execute (.else_ before truth)
  | while_ condition body => exact parts.loop .while_
  | jump jump line => exact .error
  | function name params body =>
    exact .bind (.idle rfl) fun frame m' current => .bind (.idle rfl) fun f m'' made => by
      cases current
      cases made
      exact .define known.root rfl rfl rfl rfl
  | return_ line value =>
    cases value with
    | none => exact .error
    | some e => exact .bind (parts.evaluate .returned) fun _ _ _ => .error
  | class_ name methods =>
    exact .bind (.idle rfl) fun frame m' current => .bind (.idle rfl) fun c m'' made => by
      cases current
      cases made
      exact .define known.root rfl rfl rfl rfl

theorem explains_call {c : Machine.Callee} {given : List Value} {line : Nat} (known : Known G m)
    (parts : Parts ⟨.call c given line, fuel + 1, room, m⟩ fuel) :
    Accounts ⟨.call c given line, fuel + 1, room, m⟩ (Run.call (fuel + 1) room c given line) m := by
  cases c with
  | native n =>
    cases n
    exact .idle rfl
  | function closure => exact parts.enter .function
  | class_ ref c =>
    refine .bind (.idle rfl) fun made m' creation => ?_
    cases found : c.method? initializerName with
    | none => exact .pure
    | some method =>
      have root : Machine.globals < m'.frames.next := by
        cases creation
        exact known.root
      exact .bind (.bindMethod root c method made) fun closure m'' bound =>
        .bind (parts.enter (.initializer creation found bound)) fun _ _ _ => .pure

theorem explains_enter {c : Closure} {given : List Value} {line : Nat} (known : Known G m)
    (body : Accounts ⟨.enter c given line, fuel + 1, room + 1, m⟩ (Run.executeAll fuel room c.body)
      (m.opened c.frame (Bindings.setAll [] ((c.params.map Name.text).zip given)))) :
    Accounts ⟨.enter c given line, fuel + 1, room + 1, m⟩
      (Run.enter (fuel + 1) (room + 1) c given line) m := by
  refine .bind (.extend known.root _ _) fun frame m' opening => ?_
  cases opening
  refine .bind (.handled Run.returning_handler (.within body)) fun v m'' _ => ?_
  split
  · exact .within (.load _ _)
  · exact .pure

theorem explains_loop {condition : BoundExpr} {body : BoundStmt}
    (parts : Parts ⟨.loop condition body, fuel + 1, room, m⟩ fuel) :
    Accounts ⟨.loop condition body, fuel + 1, room, m⟩ (Run.loop (fuel + 1) room condition body)
      m :=
  loop_along (R := Explains _) .trans (parts.evaluate .head)
    (fun _ _ before truthy => parts.execute (.body before truthy))
    fun _ _ _ before truthy ended => parts.loop (.again before truthy ended)

end

/-- Whatever changed while a stage was executed was written by what was executed in it. -/
theorem explained {G : Position × Node Site → Prop} {top : List BoundStmt} {S : Stage}
    (h : Standing.Stands G top S) : S.Explains S.machine S.after := by
  obtain ⟨job, fuel, room, m⟩ := S
  induction fuel generalizing job room m with
  | zero => cases job <;> exact .refl m
  | succ fuel ih =>
    have among {T : Stage} (less : T.fuel = fuel) (c : Comes ⟨job, fuel + 1, room, m⟩ T) :
        Explains ⟨job, fuel + 1, room, m⟩ T.machine T.after := by
      subst less
      exact .part c (ih T.job T.room T.machine (h.comes c))
    have parts : Parts ⟨job, fuel + 1, room, m⟩ fuel :=
      { evaluate := fun {e t} part => among (T := ⟨.evaluate e, fuel, room, t⟩) rfl (.part part)
        evaluateAll := fun {es t} part =>
          among (T := ⟨.evaluateAll es, fuel, room, t⟩) rfl (.part part)
        call := fun {c given line t} part =>
          among (T := ⟨.call c given line, fuel, room, t⟩) rfl (.part part)
        enter := fun {c given line t} part =>
          among (T := ⟨.enter c given line, fuel, room, t⟩) rfl (.part part)
        execute := fun {s t} part => among (T := ⟨.execute s, fuel, room, t⟩) rfl (.part part)
        executeAll := fun {ss t} part =>
          among (T := ⟨.executeAll ss, fuel, room, t⟩) rfl (.part part)
        loop := fun {condition body t} part =>
          among (T := ⟨.loop condition body, fuel, room, t⟩) rfl (.part part) }
    obtain ⟨known, placed⟩ := h
    cases job with
    | evaluate e =>
      obtain ⟨p, at_, good⟩ := placed
      exact explains_evaluate known at_ good parts
    | evaluateAll es =>
      cases es with
      | nil => exact .refl m
      | cons e es =>
        exact Accounts.bind (parts.evaluate .argument) fun v _ before =>
          .bind (parts.evaluateAll (.others before)) fun vs _ _ => .pure
    | call c given line => exact explains_call known parts
    | enter c given line =>
      cases room with
      | zero => exact .refl m
      | succ room => exact explains_enter known (among rfl .enter)
    | execute s =>
      obtain ⟨p, at_, good, _⟩ := placed
      exact explains_execute known at_ good parts
    | executeAll ss =>
      cases ss with
      | nil => exact .refl m
      | cons s ss =>
        exact Accounts.bind (parts.execute .first) fun _ _ before =>
          parts.executeAll (.rest before)
    | loop condition body => exact explains_loop parts

end Stage

end Script
