import Script.Proofs.Observed.Programs
import Script.Proofs.Running.Grounded
import Script.Proofs.Running.Stages

/-! Where the stages of a run stand.
A place in so many regions is run in a frame with as many links to the globals, whatever calls lead
there: code that is carried about keeps the frame it was made in. -/
namespace Script

open Lexical

namespace Frames

/-- The frame is there, and so many links lead from it to the globals. -/
structure Lies (fs : Frames) (frame depth : Nat) : Prop where
  here : frame < fs.next
  leads : fs.ancestor? frame depth = some Machine.globals

namespace Lies

variable {fs gs : Frames} {frame depth : Nat}

theorem grown (h : fs.Lies frame depth) (grown : fs.Grown gs) : gs.Lies frame depth :=
  ⟨Nat.lt_of_lt_of_le h.here grown.next, (grown.ancestor? h.here depth).trans h.leads⟩

theorem extend (h : fs.Lies frame depth) (bindings : Bindings Value) :
    (fs.extend frame bindings).Lies fs.next (depth + 1) where
  here := by
    rw [next_extend]
    exact Nat.lt_succ_self _
  leads := by
    rw [ancestor?, parent?_extend_next fs bindings h.here]
    exact (h.grown (.extend fs frame bindings)).leads

theorem ne_globals (h : fs.Lies frame (depth + 1)) : frame ≠ Machine.globals := by
  obtain ⟨outer, link, -⟩ := Option.bind_eq_some_iff.mp h.leads
  exact Nat.ne_of_gt (Nat.zero_lt_of_lt (fs.parent?_lt link))

theorem eq_globals_iff (h : fs.Lies frame depth) : frame = Machine.globals ↔ depth = 0 := by
  cases depth with
  | zero => exact ⟨fun _ => rfl, fun _ => Option.some.inj h.leads⟩
  | succ depth => exact ⟨fun he => absurd he h.ne_globals, nofun⟩

/-- Fewer links do not lead as far as the globals. -/
theorem ancestor_ne (h : fs.Lies frame depth) {distance a : Nat} (near : distance < depth)
    (found : fs.ancestor? frame distance = some a) : a ≠ Machine.globals := by
  induction distance generalizing frame depth with
  | zero =>
    cases depth with
    | zero => exact absurd near (Nat.lt_irrefl 0)
    | succ depth =>
      cases found
      exact h.ne_globals
  | succ distance ih =>
    cases depth with
    | zero => exact absurd near (Nat.not_lt_zero _)
    | succ depth =>
      obtain ⟨outer, link, leads⟩ := Option.bind_eq_some_iff.mp h.leads
      rw [ancestor?, link] at found
      have inside : outer < fs.next := Nat.lt_trans (fs.parent?_lt link) h.here
      exact ih ⟨inside, leads⟩ (Nat.lt_of_succ_lt_succ near) found

end Lies

end Frames

theorem Lexical.Position.depth_after (p : Position) (s : BoundStmt) :
    (p.after s).layers.length = p.layers.length := by
  have same := congrArg List.length (p.regions_after s)
  rwa [List.length_map, List.length_map] at same

theorem Lexical.Position.depth_pend (p : Position) (name : Name) :
    (p.pend name).layers.length = p.layers.length := by
  have same := congrArg List.length (p.regions_pend name)
  rwa [List.length_map, List.length_map] at same

theorem Lexical.Position.site_near (p : Position) {key : String} {distance : Nat}
    (h : p.site key = .local_ distance) : distance < p.layers.length := by
  unfold site at h
  cases found : p.distance? key with
  | none =>
    rw [found] at h
    cases h
  | some d =>
    rw [found] at h
    cases h
    exact (List.findIdx?_eq_some_iff_getElem.mp found).1

namespace Standing

/-- Nothing has to be observed: where a place lies is seen from the frames alone. -/
def observer : Observer Unit Unit where
  nowhere := ()
  child _ x := x
  receiving _ x := x
  site _ site := site
  consulted _ k := k
  loaded _ _ _ k := k
  bound _ k := k
  received _ _ k := k
  initialized _ _ k := k

/-- A run is relied on to lie as deep in the frames as its place does in regions. The nodes that are
run are those of accepted programs, and what else is known of the nodes of all that is ever run. -/
def upkeep (G : Position × Node Site → Prop) : Upkeep observer where
  At fs _ p frame := fs.Lies frame p.layers.length
  Good x := AcceptedNode x ∧ G x
  Kept fs _ := Machine.globals < fs.next
  Later := Frames.Grown
  refl := .refl
  trans := .trans
  lasting := .grown
  regions _ same at_ := by
    have depth := congrArg List.length same
    rw [List.length_map, List.length_map] at depth
    exact depth ▸ at_
  child _ at_ := at_
  names good := good.1.usual.names
  extend := .extend
  extended _ _ kept := Nat.lt_of_lt_of_le kept (Frames.Grown.extend _ _ _).next
  opened bindings _ at_ := at_.extend bindings
  receiving _ at_ := at_.extend _
  received _ _ kept := Nat.lt_of_lt_of_le kept (Frames.Grown.extend _ _ _).next
  define fs frame name v _ := .define fs frame name v
  bound v _ kept := Nat.lt_of_lt_of_le kept (Frames.Grown.define _ _ _ v).next
  site _ _ _ := rfl
  consulted _ _ _ kept := kept
  loaded _ _ _ kept := kept
  initialized _ _ _ kept := kept

def unobserved (m : Machine) : Observed Unit Unit := ⟨m, fun _ => (), fun _ => (), ()⟩

variable {G : Position × Node Site → Prop} {m m' : Machine}

/-- All functions and classes of the machine lie as deep as their code stands. -/
def Known (G : Position × Node Site → Prop) (m : Machine) : Prop := (upkeep G).Sound (unobserved m)

/-- The machine is in a frame that lies as deep as the place. -/
def At (p : Position) (m : Machine) : Prop := m.frames.Lies m.current p.layers.length

structure Carried (G : Position × Node Site → Prop) (m m' : Machine) : Prop where
  known : Known G m'
  grown : m.frames.Grown m'.frames
  current : m'.current = m.current

theorem Known.root (h : Known G m) : Machine.globals < m.frames.next := h.kept

theorem Known.opened (h : Known G m) (parent : Nat) (bindings : Bindings Value) :
    Known G (m.opened parent bindings) :=
  Upkeep.Sound.later h (.extend _ parent bindings) rfl rfl rfl rfl
    (Nat.lt_of_lt_of_le h.root (Frames.Grown.extend _ parent bindings).next)

theorem At.opened {p : Position} (h : At p m) (params locals : List Name) :
    At (p.opened params locals) (m.opened m.current []) := h.extend []

namespace Carried

theorem at_ {p : Position} (h : Carried G m m') (at_ : At p m) : At p m' := by
  rw [At, h.current]
  exact at_.grown h.grown

theorem of_keeps {α : Type} {P : Observed Unit Unit → Prop} {x : ObservedRun Unit Unit α}
    {y : Run α} {Q : α → Observed Unit Unit → Prop} (h : (upkeep G).Keeps P x y Q)
    (known : Known G m) (pre : P (unobserved m)) : Carried G m (endState (y m)) := by
  have ended := h (unobserved m) known pre
  change (upkeep G).Ended _ _ _ (y m) at ended
  generalize x (unobserved m) = r at ended
  generalize y m = r' at ended ⊢
  cases ended with
  | ok sound later back _ => exact ⟨sound, later, back⟩
  | error sound later back => exact ⟨sound, later, back⟩

variable {fuel room : Nat} {p : Position}

theorem evaluate {e : BoundExpr} (known : Known G m) (at_ : At p m)
    (good : ∀ n ∈ exprNodes p e, (upkeep G).Good n) {v : Value}
    (done : Run.evaluate fuel room e m = .ok v m') : Carried G m m' := by
  have carried := of_keeps ((Upkeep.Keeping.all fuel).evaluate room () p e good) known at_
  rwa [done] at carried

theorem evaluateAll {es : List BoundExpr} (known : Known G m) (at_ : At p m)
    (good : ∀ n ∈ exprsNodes p es, (upkeep G).Good n) {vs : List Value}
    (done : Run.evaluateAll fuel room es m = .ok vs m') : Carried G m m' := by
  have carried := of_keeps ((Upkeep.Keeping.all fuel).evaluateAll room () p es good) known at_
  rwa [done] at carried

theorem execute {s : BoundStmt} (known : Known G m) (at_ : At p m)
    (good : ∀ n ∈ stmtNodes p s, (upkeep G).Good n)
    (done : Run.execute fuel room s m = .ok () m') : Carried G m m' := by
  have carried := of_keeps ((Upkeep.Keeping.all fuel).execute room () p s good) known at_
  rwa [done] at carried

theorem continuing {s : BoundStmt} (known : Known G m) (at_ : At p m)
    (good : ∀ n ∈ stmtNodes p s, (upkeep G).Good n)
    (done : Run.continuing (Run.execute fuel room s) m = .ok () m') : Carried G m m' := by
  have kept := (Upkeep.Keeping.all fuel).execute room () p s good
  have carried := of_keeps (kept.continuing (y := ())) known at_
  rwa [done] at carried

theorem executeAll {ss : List BoundStmt} (known : Known G m) (at_ : At p m)
    (good : ∀ n ∈ stmtsNodes p ss, (upkeep G).Good n) (fuel room : Nat) :
    Carried G m (endState (Run.executeAll fuel room ss m)) :=
  of_keeps ((Upkeep.Keeping.all fuel).executeAll room () p ss good) known at_

end Carried

/-- A callee is one of the functions and classes of the machine. -/
theorem callee_known {value : Value} {given line : Nat} {c : Machine.Callee} (known : Known G m)
    (found : Run.callee value given line m = .ok c m') :
    m' = m ∧ (upkeep G).Callee m.frames () c := by
  have among : ∀ c, m.callee? value = some c → (upkeep G).Callee m.frames () c := by
    intro c hc
    cases value with
    | native n =>
      cases hc
      trivial
    | function ref =>
      obtain ⟨closure, made, rfl⟩ := Option.map_eq_some_iff.mp hc
      exact known.functions ref closure made
    | class_ ref =>
      obtain ⟨k, made, rfl⟩ := Option.map_eq_some_iff.mp hc
      exact known.classes ref k made
    | _ => cases hc
  simp only [Run.callee] at found
  cases hc : m.callee? value with
  | none =>
    rw [hc] at found
    cases found
  | some d =>
    rw [hc] at found
    simp only at found
    split at found
    · cases found
      exact ⟨rfl, among _ hc⟩
    · cases found

/-- A job stands at a place. At the top level statements are those of the list that is run there. -/
def Placed (G : Position × Node Site → Prop) (top : List BoundStmt) (m : Machine) : Job → Prop
  | .evaluate e => ∃ p, At p m ∧ ∀ n ∈ exprNodes p e, (upkeep G).Good n
  | .evaluateAll es => ∃ p, At p m ∧ ∀ n ∈ exprsNodes p es, (upkeep G).Good n
  | .call c _ _ => (upkeep G).Callee m.frames () c
  | .enter c _ _ => (upkeep G).Function m.frames () c
  | .execute s => ∃ p, At p m ∧ (∀ n ∈ stmtNodes p s, (upkeep G).Good n) ∧
      (p.layers = [] → declared? s ≠ none → s ∈ top)
  | .executeAll ss => ∃ p, At p m ∧ (∀ n ∈ stmtsNodes p ss, (upkeep G).Good n) ∧
      (p.layers = [] → ∀ s ∈ ss, s ∈ top)
  | .loop condition body => ∃ p, At p m ∧
      ∀ n ∈ stmtNodes p (.while_ condition body), (upkeep G).Good n

structure Stands (G : Position × Node Site → Prop) (top : List BoundStmt) (S : Stage) : Prop where
  known : Known G S.machine
  placed : Placed G top S.machine S.job

section Parts

variable {fuel room : Nat} {p : Position} {top : List BoundStmt} {job : Job}

theorem evaluate_part {e : BoundExpr} (known : Known G m) (at_ : At p m)
    (good : ∀ n ∈ exprNodes p e, (upkeep G).Good n)
    (part : Run.Part fuel room m (.evaluate e) job m') : Known G m' ∧ Placed G top m' job := by
  have behind {e' : BoundExpr} (good : ∀ n ∈ exprNodes (p.child 0) e', (upkeep G).Good n)
      {v : Value} {t : Machine} (done : Run.evaluate fuel room e' m = .ok v t) : Carried G m t :=
    .evaluate (p := p.child 0) known at_ good done
  cases part with
  | grouping | assigned | operand | left | test | choice | earlier | callee | object | owner =>
    exact ⟨known, p.child 0, at_, fun n hn => good n (by simp [exprNodes, hn])⟩
  | right before | orElse before | andThen before | yes before | last before | arguments before =>
    have carried := behind (fun n hn => good n (by simp [exprNodes, hn])) before
    exact ⟨carried.known, p.child 1, carried.at_ at_, fun n hn => good n (by simp [exprNodes, hn])⟩
  | no before =>
    have carried := behind (fun n hn => good n (by simp [exprNodes, hn])) before
    exact ⟨carried.known, p.child 2, carried.at_ at_, fun n hn => good n (by simp [exprNodes, hn])⟩
  | called before passed found =>
    have carried := behind (fun n hn => good n (by simp [exprNodes, hn])) before
    have given := Carried.evaluateAll (p := p.child 1) carried.known (carried.at_ at_)
      (fun n hn => good n (by simp [exprNodes, hn])) passed
    obtain ⟨rfl, placed⟩ := callee_known given.known found
    exact ⟨given.known, placed⟩
  | @value object name value o ref m₁ _ before found =>
    have carried := behind (fun n hn => good n (by simp [exprNodes, hn])) before
    have same : m' = m₁ := by
      simp only [Run.fieldOwner] at found
      split at found <;> cases found
      rfl
    rw [same]
    exact ⟨carried.known, p.child 1, carried.at_ at_, fun n hn => good n (by simp [exprNodes, hn])⟩

theorem evaluateAll_part {es : List BoundExpr} (known : Known G m) (at_ : At p m)
    (good : ∀ n ∈ exprsNodes p es, (upkeep G).Good n)
    (part : Run.Part fuel room m (.evaluateAll es) job m') : Known G m' ∧ Placed G top m' job := by
  cases part with
  | argument =>
    exact ⟨known, p.child 0, at_, fun n hn => good n (by simp [exprsNodes, hn])⟩
  | others before =>
    have carried := Carried.evaluate (p := p.child 0) known at_
      (fun n hn => good n (by simp [exprsNodes, hn])) before
    exact ⟨carried.known, p.child 1, carried.at_ at_, fun n hn => good n (by simp [exprsNodes, hn])⟩

theorem execute_part {s : BoundStmt} (known : Known G m) (at_ : At p m)
    (good : ∀ n ∈ stmtNodes p s, (upkeep G).Good n)
    (part : Run.Part fuel room m (.execute s) job m') : Known G m' ∧ Placed G top m' job := by
  have plain : (Node.stmt s).Plain := (good _ (stmt_mem_stmtNodes p s)).1.usual.plain
  have behind {e : BoundExpr} (good : ∀ n ∈ exprNodes (p.child 0) e, (upkeep G).Good n)
      {v : Value} {t : Machine} (done : Run.evaluate fuel room e m = .ok v t) : Carried G m t :=
    .evaluate (p := p.child 0) known at_ good done
  -- in a region nothing is at the top level
  have inner {l : Layer} {outer : List Layer} {P : Prop} (h : l :: outer = []) : P :=
    absurd h (List.cons_ne_nil l outer)
  cases part with
  | expression | print | returned =>
    exact ⟨known, p.child 0, at_, fun n hn => good n (by simp [stmtNodes, hn])⟩
  | @initial name e =>
    have here : At ((p.pend name).child 0) m := by
      rw [At, Position.child, p.depth_pend name]
      exact at_
    exact ⟨known, _, here, fun n hn => good n (by simp [stmtNodes, hn])⟩
  | @block body =>
    exact ⟨known.opened _ _, (p.block body).child 0, at_.opened [] (declaredNames body),
      fun n hn => good n (by simp [stmtNodes, hn]), inner⟩
  | round =>
    exact ⟨known.opened _ _, (p.opened [] []).child 0, at_.opened [] [],
      fun n hn => good n (by simp [stmtNodes, hn]), inner⟩
  | increment before =>
    have here : At (p.opened [] []) (m.opened m.current []) := at_.opened [] []
    have carried := Carried.continuing (p := (p.opened [] []).child 0) (known.opened _ _) here
      (fun n hn => good n (by simp [stmtNodes, hn])) before
    exact ⟨carried.known, (p.opened [] []).child 1, carried.at_ here,
      fun n hn => good n (by simp [stmtNodes, hn])⟩
  | @condition condition yes no =>
    refine ⟨known, p.child 0, at_, fun n hn => good n ?_⟩
    cases no <;> simp [stmtNodes, hn]
  | @then_ condition yes no c _ before _ =>
    have carried := behind (fun n hn => good n (by cases no <;> simp [stmtNodes, hn])) before
    exact ⟨carried.known, p.child 1, carried.at_ at_,
      fun n hn => good n (by cases no <;> simp [stmtNodes, hn]), fun _ hd => absurd plain.1 hd⟩
  | else_ before _ =>
    have carried := behind (fun n hn => good n (by simp [stmtNodes, hn])) before
    exact ⟨carried.known, p.child 2, carried.at_ at_, fun n hn => good n (by simp [stmtNodes, hn]),
      fun _ hd => absurd (plain.2 _ rfl) hd⟩
  | while_ => exact ⟨known, p, at_, good⟩

theorem executeAll_part {ss : List BoundStmt} (known : Known G m) (at_ : At p m)
    (good : ∀ n ∈ stmtsNodes p ss, (upkeep G).Good n) (listed : p.layers = [] → ∀ s ∈ ss, s ∈ top)
    (part : Run.Part fuel room m (.executeAll ss) job m') : Known G m' ∧ Placed G top m' job := by
  cases part with
  | @first s ss =>
    exact ⟨known, p.child 0, at_, fun n hn => good n (by simp [stmtsNodes, hn]),
      fun outermost _ => listed outermost s List.mem_cons_self⟩
  | @rest s ss _ before =>
    have carried := Carried.execute (p := p.child 0) known at_
      (fun n hn => good n (by simp [stmtsNodes, hn])) before
    have depth : ((p.after s).child 1).layers.length = p.layers.length := p.depth_after s
    refine ⟨carried.known, (p.after s).child 1, ?_, fun n hn => good n (by simp [stmtsNodes, hn]),
      fun outermost s' hs' => ?_⟩
    · rw [At, depth]
      exact carried.at_ at_
    · rw [outermost] at depth
      exact listed (List.length_eq_zero_iff.mp depth.symm) s' (List.mem_cons_of_mem _ hs')

theorem loop_part {condition : BoundExpr} {body : BoundStmt} (known : Known G m) (at_ : At p m)
    (good : ∀ n ∈ stmtNodes p (.while_ condition body), (upkeep G).Good n)
    (part : Run.Part fuel room m (.loop condition body) job m') :
    Known G m' ∧ Placed G top m' job := by
  have plain : declared? body = none :=
    (good _ (stmt_mem_stmtNodes p (.while_ condition body))).1.usual.plain
  have behind {v : Value} {t : Machine} (done : Run.evaluate fuel room condition m = .ok v t) :
      Carried G m t := .evaluate (p := p.child 0) known at_
        (fun n hn => good n (by simp [stmtNodes, hn])) done
  have inside : ∀ n ∈ stmtNodes (p.loop.child 1) body, (upkeep G).Good n := fun n hn =>
    good n (by simp [stmtNodes, hn])
  cases part with
  | head => exact ⟨known, p.child 0, at_, fun n hn => good n (by simp [stmtNodes, hn])⟩
  | body before truthy =>
    have carried := behind before
    exact ⟨carried.known, p.loop.child 1, carried.at_ at_, inside, fun _ hd => absurd plain hd⟩
  | again before truthy ended =>
    have carried := behind before
    have round := Carried.continuing (p := p.loop.child 1) carried.known (carried.at_ at_) inside
      ended
    exact ⟨round.known, p, round.at_ (carried.at_ at_), good⟩

theorem call_part {c : Machine.Callee} {given : List Value} {line : Nat} (known : Known G m)
    (placed : (upkeep G).Callee m.frames () c)
    (part : Run.Part fuel room m (.call c given line) job m') :
    Known G m' ∧ Placed G top m' job := by
  cases part with
  | function => exact ⟨known, placed⟩
  | @initializer ref c _ _ made method closure m₁ _ creation found bound =>
    obtain ⟨q, methods⟩ := placed
    cases creation
    have last : (observer.method? () initializerName c.methods).map Prod.snd = some method :=
      (Upkeep.method?_find? (o := observer) () _ _).trans found
    obtain ⟨⟨_, _⟩, code, rfl⟩ := Option.map_eq_some_iff.mp last
    have made : Known G { m with instances := m.instances.push ⟨ref, []⟩ } :=
      Upkeep.Sound.later known (.refl _) rfl rfl rfl rfl known.root
    have binding := Upkeep.Keeps.bindMethod ⟨m.instances.size, rfl⟩ methods.nodes code
    have ended := binding (unobserved _) made methods.place
    cases bound
    cases ended with
    | ok sound later back function => exact ⟨sound, function⟩

end Parts

namespace Stands

variable {top : List BoundStmt} {S T : Stage}

/-- Whatever a stage comes to stands at a place. -/
theorem comes (h : Stands G top S) (c : S.Comes T) : Stands G top T := by
  obtain ⟨known, placed⟩ := h
  cases c with
  | @part fuel room m job job' m' part =>
    have there : Known G m' ∧ Placed G top m' job' := by
      cases job with
      | evaluate e =>
        obtain ⟨p, at_, good⟩ := placed
        exact evaluate_part known at_ good part
      | evaluateAll es =>
        obtain ⟨p, at_, good⟩ := placed
        exact evaluateAll_part known at_ good part
      | call c given line => exact call_part known placed part
      | enter c given line => cases part
      | execute s =>
        obtain ⟨p, at_, good, _⟩ := placed
        exact execute_part known at_ good part
      | executeAll ss =>
        obtain ⟨p, at_, good, listed⟩ := placed
        exact executeAll_part known at_ good listed part
      | loop condition body =>
        obtain ⟨p, at_, good⟩ := placed
        exact loop_part known at_ good part
    exact ⟨there.1, there.2⟩
  | @enter fuel room c given line m =>
    obtain ⟨p, code⟩ := placed
    exact ⟨known.opened _ _, (p.function c.params c.body).child 0, code.place.extend _,
      fun n hn => code.nodes n (List.mem_cons_of_mem _ hn), nofun⟩

theorem reaches (h : Stands G top S) (r : S.Reaches T) : Stands G top T := by
  induction r with
  | refl => exact h
  | tail _ c ih => exact ih.comes c

end Stands

end Standing

end Script
