import Script.Proofs.Lexical.Regions

/-! What the scopes around a use contain.
A scope that lists statements contains, at a use in one of them, its parameters and what the
statements up to that one declare, itself included. -/
namespace Script.Lexical

variable {β : Type}

def among (names : List Name) (key : String) : Bool := names.any fun n => n.text == key

/-- The scope around the methods of a class, for the instance. -/
def Layer.IsClass (l : Layer) : Prop := l.region.params = [thisName] ∧ l.region.locals = []

/-- What a scope contains at nodes which all lie in one statement of its list. -/
inductive Layer.Lists (nodes : List (Position × Node β)) (l : Layer) : Prop
  | list (q : Position) (before : List (Stmt β)) (s : Stmt β) (behind : List (Stmt β))
    (place : q.layers.head?.map Layer.region = some l.region)
    (inside : ∀ x ∈ nodes, x ∈ stmtNodes q s)
    (locals : l.region.locals = declaredNames (before ++ s :: behind))
    (holds : ∀ key, l.holds key = among (l.region.params ++ declaredNames (before ++ [s])) key)
  | bare (locals : l.region.locals = []) (holds : ∀ key, l.holds key = among l.region.params key)

def Layer.Receives (l : Layer) : Prop := l.holds thisName.text = true ↔ l.IsClass

/-- The scopes around a place are as they should be at the nodes, and those of classes are known. -/
structure Position.Sees (p : Position) (nodes : List (Position × Node β)) : Prop where
  lists : ∀ l ∈ p.layers, l.Lists nodes
  receives : ∀ l ∈ p.layers, l.Receives
  inClass : (∃ l ∈ p.layers, l.IsClass) ↔ p.inClass = true

structure Position.Goes (p : Position) (ss : List (Stmt β)) (nodes : List (Position × Node β)) :
    Prop where
  outer : ∀ l ∈ p.layers.tail, l.Lists nodes
  inner : ∀ l ∈ p.layers.head?, ∃ before, l.region.locals = declaredNames (before ++ ss) ∧
    ∀ key, l.holds key = among (l.region.params ++ declaredNames before) key
  receives : ∀ l ∈ p.layers, l.Receives
  inClass : (∃ l ∈ p.layers, l.IsClass) ↔ p.inClass = true

structure Node.Usual (x : Position × Node β) : Prop where
  plain : x.2.Plain
  names : ∀ m ∈ x.2.names, m.text ≠ thisName.text

theorem among_append (names names' : List Name) (key : String) :
    among (names ++ names') key = (among names key || among names' key) := List.any_append

theorem Layer.Lists.sub {nodes nodes' : List (Position × Node β)} {l : Layer}
    (h : l.Lists nodes) (hs : ∀ x ∈ nodes', x ∈ nodes) : l.Lists nodes' := by
  cases h with
  | list q before s behind place inside locals holds =>
    exact .list q before s behind place (fun x hx => inside x (hs x hx)) locals holds
  | bare locals holds => exact .bare locals holds

namespace Position

variable {p : Position} {nodes nodes' : List (Position × Node β)}

theorem regions_onInner (p : Position) (change : Layer → Layer)
    (h : ∀ l, (change l).region = l.region) :
    (p.onInner change).layers.map Layer.region = p.layers.map Layer.region := by
  obtain ⟨path, layers, inLoop, inFunction, inClass⟩ := p
  cases layers with
  | nil => rfl
  | cons l outer => simp only [onInner, List.map_cons, h]

theorem regions_declare (p : Position) (name : Name) :
    (p.declare name).layers.map Layer.region = p.layers.map Layer.region :=
  p.regions_onInner _ fun _ => rfl

theorem regions_pend (p : Position) (name : Name) :
    (p.pend name).layers.map Layer.region = p.layers.map Layer.region :=
  p.regions_onInner _ fun _ => rfl

theorem regions_after (p : Position) (s : Stmt β) :
    (p.after s).layers.map Layer.region = p.layers.map Layer.region := by
  unfold after
  split
  · exact p.regions_declare _
  · rfl

/-- Whether a scope is that of a class is seen by its region. -/
theorem isClass_of_regions {q : Position}
    (same : p.layers.map Layer.region = q.layers.map Layer.region)
    (h : ∃ l ∈ p.layers, l.IsClass) : ∃ l ∈ q.layers, l.IsClass := by
  obtain ⟨l, hl, hc⟩ := h
  obtain ⟨l', hl', region⟩ := List.mem_map.mp (same ▸ List.mem_map_of_mem hl)
  refine ⟨l', hl', ?_⟩
  rw [Layer.IsClass, region]
  exact hc

theorem isClass_cons {l : Layer} {outer : List Layer} (h : ¬ l.IsClass) :
    (∃ k ∈ l :: outer, k.IsClass) ↔ ∃ k ∈ outer, k.IsClass := by
  simp only [List.mem_cons, exists_eq_or_imp, h, false_or]

theorem Sees.sub (h : p.Sees nodes) (hs : ∀ x ∈ nodes', x ∈ nodes) : p.Sees nodes' where
  lists l hl := (h.lists l hl).sub hs
  receives := h.receives
  inClass := h.inClass

theorem Sees.child (h : p.Sees nodes) (i : Nat) : (p.child i).Sees nodes :=
  ⟨h.lists, h.receives, h.inClass⟩

theorem Sees.bare (h : p.Sees nodes) : (p.opened [] []).Sees nodes where
  lists := List.forall_mem_cons.mpr ⟨.bare rfl fun _ => rfl, h.lists⟩
  receives := by
    refine List.forall_mem_cons.mpr ⟨⟨fun h => ?_, fun h => ?_⟩, h.receives⟩
    · cases h
    · cases h.1
  inClass := (isClass_cons fun hc => by cases hc.1).trans h.inClass

theorem Sees.class_ (h : p.Sees nodes) : p.class_.Sees nodes where
  lists := List.forall_mem_cons.mpr ⟨.bare rfl fun _ => rfl, h.lists⟩
  receives := by
    refine List.forall_mem_cons.mpr ⟨⟨fun _ => ⟨rfl, rfl⟩, fun _ => ?_⟩, h.receives⟩
    simp [Layer.opened, Layer.holds, Layer.names]
  inClass := ⟨fun _ => rfl, fun _ => ⟨_, List.mem_cons_self, rfl, rfl⟩⟩

theorem Sees.goes (h : p.Sees nodes) {params : List Name} {body : List (Stmt β)}
    (hp : ∀ n ∈ params, n.text ≠ thisName.text) {q : Position}
    (layers : q.layers = .opened ⟨p.path, params, declaredNames body⟩ :: p.layers)
    (inClass : q.inClass = p.inClass) : q.Goes body nodes := by
  have apart : ¬ (Layer.opened ⟨p.path, params, declaredNames body⟩).IsClass := by
    intro hc
    have first : thisName ∈ params := by
      rw [show params = [thisName] from hc.1]
      exact List.mem_singleton_self _
    exact hp _ first rfl
  refine ⟨?_, ?_, ?_, ?_⟩
  · rw [layers]
    exact h.lists
  · rw [layers]
    rintro l ⟨⟩
    refine ⟨[], rfl, fun key => ?_⟩
    rw [show declaredNames ([] : List (Stmt β)) = [] from rfl, List.append_nil]
    rfl
  · rw [layers]
    refine List.forall_mem_cons.mpr ⟨⟨fun held => ?_, fun hc => absurd hc apart⟩, h.receives⟩
    obtain ⟨n, hn, htext⟩ := List.any_eq_true.mp held
    exact absurd (beq_iff_eq.mp htext) (hp n hn)
  · rw [layers, inClass]
    exact (isClass_cons apart).trans h.inClass

theorem declaredNames_append (ss ss' : List (Stmt β)) :
    declaredNames (ss ++ ss') = declaredNames ss ++ declaredNames ss' := List.filterMap_append

structure Behind (s : Stmt β) (l l' : Layer) : Prop where
  region : l'.region = l.region
  holds : ∀ key, l'.holds key = (l.holds key || among (declaredNames [s]) key)

theorem tail_after (p : Position) (s : Stmt β) : (p.after s).layers.tail = p.layers.tail := by
  unfold Position.after
  split
  · simp only [declare, onInner]
    cases p.layers <;> rfl
  · rfl

theorem head_after {s : Stmt β} {l' : Layer} (h : l' ∈ (p.after s).layers.head?) :
    ∃ l ∈ p.layers.head?, Behind s l l' := by
  unfold Position.after at h
  cases hs : declared? s with
  | none =>
    simp only [hs] at h
    exact ⟨l', h, rfl, fun key => by simp [declaredNames, hs, among]⟩
  | some name =>
    simp only [hs, declare, onInner] at h
    cases hp : p.layers with
    | nil =>
      rw [hp] at h
      cases h
    | cons l outer =>
      rw [hp] at h
      cases h
      refine ⟨l, rfl, rfl, fun key => ?_⟩
      simp only [declaredNames, List.filterMap_cons, hs, List.filterMap_nil, among, Layer.holds,
        Layer.names, Layer.declare, List.any_append, List.any_cons, List.any_nil]
      cases name.text == key <;> cases l.pending.any fun n => n.text == key <;> simp

theorem mem_after {s : Stmt β} {l' : Layer} (h : l' ∈ (p.after s).layers) :
    l' ∈ p.layers.tail ∨ ∃ l ∈ p.layers.head?, Behind s l l' := by
  have tail := tail_after p s
  cases hp : (p.after s).layers with
  | nil =>
    rw [hp] at h
    cases h
  | cons k outer =>
    rw [hp] at h tail
    rcases List.mem_cons.mp h with rfl | h
    · exact .inr (head_after (by rw [hp]; rfl))
    · exact .inl (tail ▸ h)

theorem after_inClass (p : Position) (s : Stmt β) : (p.after s).inClass = p.inClass := by
  unfold after
  split <;> rfl

/-- Scopes of classes stay those of classes behind a statement that declares no instance. -/
theorem after_receives {s : Stmt β} (h : ∀ l ∈ p.layers, l.Receives)
    (hs : among (declaredNames [s]) thisName.text = false) :
    ∀ l ∈ (p.after s).layers, l.Receives := by
  intro l' hl'
  rcases mem_after hl' with outer | ⟨l, hl, behind⟩
  · exact h l' (List.mem_of_mem_tail outer)
  · have known := h l (List.mem_of_mem_head? hl)
    rw [Layer.Receives, Layer.IsClass] at known ⊢
    rw [behind.holds, hs, Bool.or_false, behind.region]
    exact known

theorem after_isClass {s : Stmt β} (h : (∃ l ∈ p.layers, l.IsClass) ↔ p.inClass = true) :
    (∃ l ∈ (p.after s).layers, l.IsClass) ↔ (p.after s).inClass = true := by
  rw [after_inClass, ← h]
  exact ⟨isClass_of_regions (p.regions_after s), isClass_of_regions (p.regions_after s).symm⟩

variable {s : Stmt β} {ss : List (Stmt β)}

theorem Goes.first (h : p.Goes (s :: ss) nodes)
    (hs : among (declaredNames [s]) thisName.text = false)
    (sub : ∀ x ∈ stmtNodes (p.child 0) s, x ∈ nodes) :
    (p.after s).Sees (stmtNodes (p.child 0) s) where
  receives := after_receives h.receives hs
  inClass := after_isClass h.inClass
  lists := by
    intro l' hl'
    rcases mem_after hl' with outer | ⟨l, hl, behind⟩
    · exact (h.outer l' outer).sub sub
    · obtain ⟨before, locals, held⟩ := h.inner l hl
      refine .list (p.child 0) before s ss ?_ (fun _ hx => hx) (behind.region ▸ locals)
        fun key => ?_
      · rw [behind.region]
        exact congrArg (Option.map Layer.region) hl
      · simp only [behind.holds, held, behind.region, declaredNames_append, among_append,
          Bool.or_assoc]

theorem Goes.rest (h : p.Goes (s :: ss) nodes)
    (hs : among (declaredNames [s]) thisName.text = false) (sub : ∀ x ∈ nodes', x ∈ nodes) :
    (p.after s).Goes ss nodes' where
  receives := after_receives h.receives hs
  inClass := after_isClass h.inClass
  outer l hl := by
    rw [tail_after] at hl
    exact (h.outer l hl).sub sub
  inner l' hl' := by
    obtain ⟨l, hl, behind⟩ := head_after hl'
    obtain ⟨before, locals, held⟩ := h.inner l hl
    refine ⟨before ++ [s], ?_, fun key => ?_⟩
    · rw [behind.region, locals, List.append_assoc]
      rfl
    · simp only [behind.holds, held, behind.region, declaredNames_append, among_append,
        Bool.or_assoc]

/-- In an initializer the variable is visible as it is behind the declaration. -/
theorem Sees.pend {name : Name} (h : (p.declare name).Sees nodes) : (p.pend name).Sees nodes := by
  obtain ⟨path, layers, inLoop, inFunction, inClass⟩ := p
  cases layers with
  | nil => exact ⟨h.lists, h.receives, h.inClass⟩
  | cons l outer =>
    have same (key : String) :
        Layer.holds { l with pending := name :: l.pending } key = (l.declare name).holds key := by
      simp only [Layer.holds, Layer.names, Layer.declare, List.any_append, List.any_cons]
      cases name.text == key <;> cases l.pending.any fun n => n.text == key <;> simp
    obtain ⟨lists, outerLists⟩ := List.forall_mem_cons.mp h.lists
    obtain ⟨receives, outerReceives⟩ := List.forall_mem_cons.mp h.receives
    refine ⟨List.forall_mem_cons.mpr ⟨?_, outerLists⟩, List.forall_mem_cons.mpr ⟨?_, outerReceives⟩,
      ?_⟩
    · cases lists with
      | list q before s behind place inside locals holds =>
        exact .list q before s behind place inside locals fun key => (same key).trans (holds key)
      | bare locals holds => exact .bare locals fun key => (same key).trans (holds key)
    · rw [Layer.Receives, same]
      exact receives
    · refine Iff.trans ?_ h.inClass
      exact ⟨isClass_of_regions rfl, isClass_of_regions rfl⟩

end Position

/-- The scopes around a use are as they should be. -/
def Seen (x : Position × Node β) : Prop := x.2.use?.isSome = true → x.1.Sees [x]

section

variable {p : Position}

theorem seen_cons {node : Node β} {inside : List (Position × Node β)}
    (sees : p.Sees ((p, node) :: inside))
    (h : p.Sees inside → ∀ x ∈ inside, Seen x) : ∀ x ∈ (p, node) :: inside, Seen x :=
  List.forall_mem_cons.mpr ⟨fun _ => sees.sub fun _ hx => by simp_all,
    h (sees.sub fun _ hx => List.mem_cons_of_mem _ hx)⟩

theorem seen_append {nodes nodes' : List (Position × Node β)} (sees : p.Sees (nodes ++ nodes'))
    (h : p.Sees nodes → ∀ x ∈ nodes, Seen x) (h' : p.Sees nodes' → ∀ x ∈ nodes', Seen x) :
    ∀ x ∈ nodes ++ nodes', Seen x :=
  List.forall_mem_append.mpr ⟨h (sees.sub fun _ => List.mem_append_left _),
    h' (sees.sub fun _ => List.mem_append_right _)⟩

theorem seen_code {params : List Name} {body : List (Stmt β)}
    (h : ∀ x ∈ codeNodes p params body, Node.Usual x) (sees : p.Sees (codeNodes p params body))
    (hb : ∀ {q : Position}, (∀ x ∈ stmtsNodes q body, Node.Usual x) →
      q.Goes body (stmtsNodes q body) → ∀ x ∈ stmtsNodes q body, Seen x) :
    ∀ x ∈ codeNodes p params body, Seen x := by
  obtain ⟨code, h⟩ := List.forall_mem_cons.mp h
  refine List.forall_mem_cons.mpr ⟨nofun, hb h ?_⟩
  exact (sees.sub fun _ hx => List.mem_cons_of_mem _ hx).goes code.names rfl rfl

end

mutual

theorem exprNodes_seen (p : Position) (e : Expr β) (h : ∀ x ∈ exprNodes p e, Node.Usual x)
    (sees : p.Sees (exprNodes p e)) : ∀ x ∈ exprNodes p e, Seen x := by
  cases e with
  | literal value => exact seen_cons sees fun _ => List.forall_mem_nil _
  | «variable» name site => exact seen_cons sees fun _ => List.forall_mem_nil _
  | this line site => exact seen_cons sees fun _ => List.forall_mem_nil _
  | grouping inner =>
    obtain ⟨-, h⟩ := List.forall_mem_cons.mp h
    exact seen_cons sees fun sees => exprNodes_seen _ inner h (sees.child 0)
  | assign name site value =>
    obtain ⟨-, h⟩ := List.forall_mem_cons.mp h
    exact seen_cons sees fun sees => exprNodes_seen _ value h (sees.child 0)
  | unary op line operand =>
    obtain ⟨-, h⟩ := List.forall_mem_cons.mp h
    exact seen_cons sees fun sees => exprNodes_seen _ operand h (sees.child 0)
  | get object property =>
    obtain ⟨-, h⟩ := List.forall_mem_cons.mp h
    exact seen_cons sees fun sees => exprNodes_seen _ object h (sees.child 0)
  | binary left op line right =>
    obtain ⟨-, h⟩ := List.forall_mem_cons.mp h
    obtain ⟨h, h'⟩ := List.forall_mem_append.mp h
    exact seen_cons sees fun sees => seen_append sees
      (fun sees => exprNodes_seen _ left h (sees.child 0))
      fun sees => exprNodes_seen _ right h' (sees.child 1)
  | logical left op line right =>
    obtain ⟨-, h⟩ := List.forall_mem_cons.mp h
    obtain ⟨h, h'⟩ := List.forall_mem_append.mp h
    exact seen_cons sees fun sees => seen_append sees
      (fun sees => exprNodes_seen _ left h (sees.child 0))
      fun sees => exprNodes_seen _ right h' (sees.child 1)
  | sequence earlier last =>
    obtain ⟨-, h⟩ := List.forall_mem_cons.mp h
    obtain ⟨h, h'⟩ := List.forall_mem_append.mp h
    exact seen_cons sees fun sees => seen_append sees
      (fun sees => exprNodes_seen _ earlier h (sees.child 0))
      fun sees => exprNodes_seen _ last h' (sees.child 1)
  | set object property value =>
    obtain ⟨-, h⟩ := List.forall_mem_cons.mp h
    obtain ⟨h, h'⟩ := List.forall_mem_append.mp h
    exact seen_cons sees fun sees => seen_append sees
      (fun sees => exprNodes_seen _ object h (sees.child 0))
      fun sees => exprNodes_seen _ value h' (sees.child 1)
  | call callee line arguments =>
    obtain ⟨-, h⟩ := List.forall_mem_cons.mp h
    obtain ⟨h, h'⟩ := List.forall_mem_append.mp h
    exact seen_cons sees fun sees => seen_append sees
      (fun sees => exprNodes_seen _ callee h (sees.child 0))
      fun sees => exprsNodes_seen _ arguments h' (sees.child 1)
  | ternary condition yes no =>
    obtain ⟨-, h⟩ := List.forall_mem_cons.mp h
    obtain ⟨h, h''⟩ := List.forall_mem_append.mp h
    obtain ⟨h, h'⟩ := List.forall_mem_append.mp h
    exact seen_cons sees fun sees => seen_append sees
      (fun sees => seen_append sees (fun sees => exprNodes_seen _ condition h (sees.child 0))
        fun sees => exprNodes_seen _ yes h' (sees.child 1))
      fun sees => exprNodes_seen _ no h'' (sees.child 2)
  | function params body =>
    obtain ⟨-, h⟩ := List.forall_mem_cons.mp h
    exact seen_cons sees fun sees => seen_code h (sees.child 0) (stmtsNodes_seen _ body)

theorem exprsNodes_seen (p : Position) (es : List (Expr β))
    (h : ∀ x ∈ exprsNodes p es, Node.Usual x) (sees : p.Sees (exprsNodes p es)) :
    ∀ x ∈ exprsNodes p es, Seen x := by
  cases es with
  | nil => exact List.forall_mem_nil _
  | cons e es =>
    obtain ⟨h, h'⟩ := List.forall_mem_append.mp h
    exact seen_append sees (fun sees => exprNodes_seen _ e h (sees.child 0))
      fun sees => exprsNodes_seen _ es h' (sees.child 1)

/-- What a statement declares in its list is seen inside. -/
theorem stmtNodes_seen (p : Position) (s : Stmt β) (h : ∀ x ∈ stmtNodes p s, Node.Usual x)
    (sees : (p.after s).Sees (stmtNodes p s)) : ∀ x ∈ stmtNodes p s, Seen x := by
  cases s with
  | expression e =>
    obtain ⟨-, h⟩ := List.forall_mem_cons.mp h
    exact seen_cons sees fun sees => exprNodes_seen _ e h (sees.child 0)
  | print e =>
    obtain ⟨-, h⟩ := List.forall_mem_cons.mp h
    exact seen_cons sees fun sees => exprNodes_seen _ e h (sees.child 0)
  | var name initial =>
    cases initial with
    | none => exact List.forall_mem_singleton.mpr nofun
    | some e =>
      obtain ⟨-, h⟩ := List.forall_mem_cons.mp h
      refine List.forall_mem_cons.mpr ⟨nofun, exprNodes_seen _ e h ?_⟩
      exact (sees.sub fun _ hx => List.mem_cons_of_mem _ hx).pend.child 0
  | block body =>
    obtain ⟨-, h⟩ := List.forall_mem_cons.mp h
    refine List.forall_mem_cons.mpr ⟨nofun, stmtsNodes_seen _ body h ?_⟩
    exact (sees.sub fun _ hx => List.mem_cons_of_mem _ hx).goes (List.forall_mem_nil _) rfl rfl
  | step body increment =>
    obtain ⟨first, h⟩ := List.forall_mem_cons.mp h
    obtain ⟨h, h'⟩ := List.forall_mem_append.mp h
    have inner := (sees.sub fun _ hx => List.mem_cons_of_mem _ hx).bare
    refine List.forall_mem_cons.mpr ⟨nofun, seen_append inner (fun sees => ?_) fun sees => ?_⟩
    · refine stmtNodes_seen _ body h ?_
      rw [Position.after_of_none first.plain]
      exact sees.child 0
    · exact exprNodes_seen _ increment h' (sees.child 1)
  | if_ condition yes no =>
    obtain ⟨plain, plain'⟩ := (h _ (stmt_mem_stmtNodes p _)).plain
    cases no with
    | none =>
      obtain ⟨-, h⟩ := List.forall_mem_cons.mp h
      obtain ⟨h, h'⟩ := List.forall_mem_append.mp h
      refine seen_cons sees fun sees => seen_append sees
        (fun sees => exprNodes_seen _ condition h (sees.child 0)) fun sees => ?_
      refine stmtNodes_seen _ yes h' ?_
      rw [Position.after_of_none plain]
      exact sees.child 1
    | some no =>
      obtain ⟨-, h⟩ := List.forall_mem_cons.mp h
      obtain ⟨h, h''⟩ := List.forall_mem_append.mp h
      obtain ⟨h, h'⟩ := List.forall_mem_append.mp h
      refine seen_cons sees fun sees => seen_append sees (fun sees => seen_append sees
        (fun sees => exprNodes_seen _ condition h (sees.child 0)) fun sees => ?_) fun sees => ?_
      · refine stmtNodes_seen _ yes h' ?_
        rw [Position.after_of_none plain]
        exact sees.child 1
      · refine stmtNodes_seen _ no h'' ?_
        rw [Position.after_of_none (plain' no rfl)]
        exact sees.child 2
  | while_ condition body =>
    obtain ⟨first, h⟩ := List.forall_mem_cons.mp h
    obtain ⟨h, h'⟩ := List.forall_mem_append.mp h
    refine seen_cons sees fun sees => seen_append sees
      (fun sees => exprNodes_seen _ condition h (sees.child 0)) fun sees => ?_
    refine stmtNodes_seen _ body h' ?_
    rw [Position.after_of_none first.plain]
    exact ⟨sees.lists, sees.receives, sees.inClass⟩
  | jump jump line => exact List.forall_mem_singleton.mpr nofun
  | function name params body =>
    obtain ⟨-, h⟩ := List.forall_mem_cons.mp h
    have inner := sees.sub fun _ hx => List.mem_cons_of_mem _ hx
    exact List.forall_mem_cons.mpr ⟨nofun, seen_code h (inner.child 0) (stmtsNodes_seen _ body)⟩
  | return_ line value =>
    cases value with
    | none => exact List.forall_mem_singleton.mpr nofun
    | some e =>
      obtain ⟨-, h⟩ := List.forall_mem_cons.mp h
      exact seen_cons sees fun sees => exprNodes_seen _ e h (sees.child 0)
  | class_ name methods =>
    obtain ⟨-, h⟩ := List.forall_mem_cons.mp h
    have inner := sees.sub fun _ hx => List.mem_cons_of_mem _ hx
    exact List.forall_mem_cons.mpr ⟨nofun, methodsNodes_seen _ methods h (inner.class_.child 0)⟩

theorem stmtsNodes_seen (p : Position) (ss : List (Stmt β))
    (h : ∀ x ∈ stmtsNodes p ss, Node.Usual x) (goes : p.Goes ss (stmtsNodes p ss)) :
    ∀ x ∈ stmtsNodes p ss, Seen x := by
  cases ss with
  | nil => exact List.forall_mem_nil _
  | cons s ss =>
    obtain ⟨h, h'⟩ := List.forall_mem_append.mp h
    have unlike : among (declaredNames [s]) thisName.text = false := by
      refine List.any_eq_false.mpr fun n hn hn' => ?_
      obtain ⟨k, hk, hs⟩ := List.mem_filterMap.mp hn
      cases List.mem_singleton.mp hk
      exact (h (_, .stmt s) (stmt_mem_stmtNodes _ s)).names n (declared_mem_names hs)
        (beq_iff_eq.mp hn')
    refine List.forall_mem_append.mpr ⟨stmtNodes_seen _ s h ?_, stmtsNodes_seen _ ss h' ?_⟩
    · rw [Position.after_child]
      exact (goes.first unlike fun _ => List.mem_append_left _).child 0
    · have rest : (p.after s).Goes ss (stmtsNodes ((p.after s).child 1) ss) :=
        goes.rest unlike fun _ => List.mem_append_right _
      exact ⟨rest.outer, rest.inner, rest.receives, rest.inClass⟩

theorem methodsNodes_seen (p : Position) (ms : List (Method β))
    (h : ∀ x ∈ methodsNodes p ms, Node.Usual x) (sees : p.Sees (methodsNodes p ms)) :
    ∀ x ∈ methodsNodes p ms, Seen x := by
  cases ms with
  | nil => exact List.forall_mem_nil _
  | cons m ms =>
    cases m with
    | mk name params body =>
      have nodes : methodsNodes p (.mk name params body :: ms) =
          codeNodes (p.child 0) params body ++ methodsNodes (p.child 1) ms := rfl
      rw [nodes] at h sees ⊢
      obtain ⟨h, h'⟩ := List.forall_mem_append.mp h
      exact seen_append sees (fun sees => seen_code h (sees.child 0) (stmtsNodes_seen _ body))
        fun sees => methodsNodes_seen _ ms h' (sees.child 1)

end

/-- In a program, what the scopes around a use contain is what the text says. -/
theorem programNodes_seen (number : Nat) (program : List (Stmt β))
    (h : ∀ x ∈ programNodes number program, Node.Usual x) :
    ∀ x ∈ programNodes number program, Seen x := by
  refine stmtsNodes_seen (Position.top number) program h ⟨nofun, nofun, nofun, ?_, nofun⟩
  rintro ⟨l, hl, -⟩
  cases hl

end Script.Lexical
