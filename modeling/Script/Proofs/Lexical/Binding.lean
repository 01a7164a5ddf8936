import Script.Binding
import Script.Proofs.Lexical.Renaming

/-! The binder at the places of a program and of the renamed one.
What either binder does with names it does in step with the other. -/
namespace Script

open Lexical

namespace Scope

theorem holds_cons (l : Local) (scope : Scope) (key : String) :
    Scope.holds (l :: scope) key = (l.key == key || scope.holds key) := by
  simp only [holds, find?, List.find?_cons]
  cases l.key == key <;> rfl

theorem holds_declare (name : Name) (scope : Scope) (key : String) :
    (scope.declare name).holds key = (name.text == key || scope.holds key) := by
  induction scope with
  | nil => simp only [declare, holds_cons]
  | cons l scope ih =>
    simp only [declare]
    split
    · rename_i h
      simp only [holds_cons, h]
      cases name.text == key <;> rfl
    · simp only [holds_cons, ih]
      cases l.key == key <;> cases name.text == key <;> rfl

theorem holds_advance (key : String) (progress : Progress) (scope : Scope) (k : String) :
    (scope.advance key progress).holds k = scope.holds k := by
  induction scope with
  | nil => rfl
  | cons l scope ih =>
    simp only [advance]
    split
    · simp only [holds_cons]
    · simp only [holds_cons, ih]

end Scope

namespace Lexical.Renaming

variable (ρ : Renaming)

def local_ (r : Region) (l : Local) : Local := ⟨ρ.key r l.key, ρ.name l.name, l.progress⟩

/-- The scope of a region in the renamed program. -/
def scope (r : Region) (s : Scope) : Scope := s.map (ρ.local_ r)

variable {ρ} {r : Region}

theorem key_beq (a b : String) : (ρ.key r a == ρ.key r b) = (a == b) := by
  rw [Bool.eq_iff_iff, beq_iff_eq, beq_iff_eq]
  exact ⟨ρ.key_injective r a b, fun h => by rw [h]⟩

theorem holds_scope (s : Scope) (key : String) : (ρ.scope r s).holds (ρ.key r key) = s.holds key := by
  induction s with
  | nil => rfl
  | cons l s ih =>
    show Scope.holds (ρ.local_ r l :: ρ.scope r s) _ = _
    rw [Scope.holds_cons, Scope.holds_cons, ih]
    simp only [local_, key_beq]

theorem find?_scope (s : Scope) (key : String) :
    (ρ.scope r s).find? (ρ.key r key) = (s.find? key).map (ρ.local_ r) := by
  simp only [Scope.find?, scope, List.find?_map]
  congr 2
  funext l
  exact key_beq _ _

theorem advance_scope (key : String) (progress : Progress) (s : Scope) :
    (ρ.scope r s).advance (ρ.key r key) progress = ρ.scope r (s.advance key progress) := by
  induction s with
  | nil => rfl
  | cons l s ih =>
    by_cases h : l.key = key
    · simp [scope, local_, Scope.advance, h]
    · have hk : ρ.key r l.key ≠ ρ.key r key := fun he => h (ρ.key_injective r _ _ he)
      simp only [scope, local_, List.map_cons, Scope.advance, if_neg h, if_neg hk] at ih ⊢
      rw [ih]

theorem declare_scope {name : Name} (h : ρ.text name = ρ.key r name.text) (s : Scope) :
    (ρ.scope r s).declare (ρ.name name) = ρ.scope r (s.declare name) := by
  induction s with
  | nil => exact congrArg (fun k => [Local.mk k (ρ.name name) .declared]) h
  | cons l s ih =>
    by_cases hk : l.key = name.text
    · simp [scope, local_, Scope.declare, hk, Renaming.name, h]
    · have hk' : ρ.key r l.key ≠ ρ.text name := fun he =>
        hk (ρ.key_injective r _ _ (he.trans h))
      simp only [scope, local_, List.map_cons, Scope.declare, if_neg hk, Renaming.name,
        if_neg hk'] at ih ⊢
      rw [ih]

theorem unused_scope (s : Scope) : (ρ.scope r s).unused.length = s.unused.length := by
  simp only [Scope.unused, scope, List.length_map, List.filter_map]
  rfl

end Lexical.Renaming

namespace Lexical

open Script.Binding

variable (ρ : Renaming)

/-- Scopes hold what layers hold, and other scopes are theirs in the renamed program. -/
inductive ScopesFit : List Layer → List Scope → List Scope → Prop
  | nil : ScopesFit [] [] []
  | cons {l : Layer} {s : Scope} {layers : List Layer} {scopes scopes' : List Scope}
    (holds : ∀ key, s.holds key = l.holds key) (outer : ScopesFit layers scopes scopes') :
    ScopesFit (l :: layers) (s :: scopes) (ρ.scope l.region s :: scopes')

/-- The contexts of the two runs of the binder within layers, and what else is around. -/
structure FitsIn (layers : List Layer) (inLoop inFunction inClass : Bool) (s s' : Context) :
    Prop where
  scopes : ScopesFit ρ layers s.scopes s'.scopes
  loops : s.loops ≠ 0 ↔ inLoop = true
  enclosing : s.enclosing ≠ .none ↔ inFunction = true
  inClass : s.inClass = inClass
  loops_eq : s'.loops = s.loops
  enclosing_eq : s'.enclosing = s.enclosing
  inClass_eq : s'.inClass = s.inClass
  reports : s'.reports.length = s.reports.length
  occurrences : s'.occurrences.map (fun o => (o.use, o.distance)) =
    s.occurrences.map fun o => (o.use, o.distance)

abbrev Fits (p : Position) (s s' : Context) : Prop :=
  FitsIn ρ p.layers p.inLoop p.inFunction p.inClass s s'

variable {ρ}

/-- Which name of a layer a key stands for once it is renamed does not depend on the scope. -/
theorem renamed_holds {s : Scope} {l : Layer} (h : ∀ key, s.holds key = l.holds key) (key : String) :
    (ρ.scope l.region s).holds key = l.names.any fun n => ρ.key l.region n.text == key := by
  have left : (ρ.scope l.region s).holds key = true ↔
      ∃ k, s.holds k = true ∧ ρ.key l.region k = key := by
    simp only [Scope.holds, Scope.find?, Renaming.scope, List.find?_isSome, List.mem_map,
      beq_iff_eq]
    constructor
    · rintro ⟨_, ⟨x, hx, rfl⟩, hk⟩
      exact ⟨x.key, ⟨x, hx, rfl⟩, hk⟩
    · rintro ⟨_, ⟨x, hx, rfl⟩, hk⟩
      exact ⟨_, ⟨x, hx, rfl⟩, hk⟩
  rw [Bool.eq_iff_iff, left, List.any_eq_true]
  constructor
  · rintro ⟨k, hk, rfl⟩
    rw [h, Layer.holds, List.any_eq_true] at hk
    obtain ⟨n, hn, hk⟩ := hk
    exact ⟨n, hn, by rw [beq_iff_eq.mp hk, beq_self_eq_true]⟩
  · rintro ⟨n, hn, hk⟩
    refine ⟨n.text, ?_, beq_iff_eq.mp hk⟩
    rw [h, Layer.holds, List.any_eq_true]
    exact ⟨n, hn, beq_self_eq_true _⟩

namespace ScopesFit

variable {layers : List Layer} {scopes scopes' : List Scope}

theorem distance? (h : ScopesFit ρ layers scopes scopes') (key : String) :
    Scope.distance? scopes key = layers.findIdx? fun l => l.holds key := by
  induction h with
  | nil => rfl
  | cons holds _ ih =>
    simp only [Scope.distance?, List.findIdx?_cons, holds] at ih ⊢
    rw [ih]

theorem renamedDistance? (h : ScopesFit ρ layers scopes scopes') (key : String) :
    Scope.distance? scopes' key =
      layers.findIdx? fun l => l.names.any fun n => ρ.key l.region n.text == key := by
  induction h with
  | nil => rfl
  | cons holds _ ih =>
    simp only [Scope.distance?, List.findIdx?_cons, renamed_holds holds] at ih ⊢
    rw [ih]

theorem advance (h : ScopesFit ρ layers scopes scopes') {d : Nat} {l : Layer} {key key' : String}
    (hl : layers[d]? = some l) (hk : key' = ρ.key l.region key) (progress : Progress) :
    ScopesFit ρ layers (scopes.modify d fun s => s.advance key progress)
      (scopes'.modify d fun s => s.advance key' progress) := by
  induction h generalizing d with
  | nil => simp at hl
  | @cons k s _ _ _ holds outer ih =>
    cases d with
    | zero =>
      simp only [List.getElem?_cons_zero, Option.some.injEq] at hl
      subst hl
      simp only [List.modify_zero_cons, hk, Renaming.advance_scope]
      exact .cons (fun key => (Scope.holds_advance _ _ _ _).trans (holds key)) outer
    | succ d => exact .cons holds (ih (by simpa using hl))

end ScopesFit

variable {α β γ δ : Type}

/-- Two binders keep their contexts fitting, from a place to a place. What `Q` says of their results
is so where nothing was complained of. -/
def Binds (ρ : Renaming) (p p' : Position) (x : Binder α) (y : Binder β) (Q : α → β → Prop) : Prop :=
  ∀ s s', Fits ρ p s s' →
    Fits ρ p' (x.run s).run.2 (y.run s').run.2 ∧
      ((x.run s).run.2.reports = [] → s.reports = [] ∧ Q (x.run s).run.1 (y.run s').run.1)

namespace Binds

variable {p p' p'' : Position} {x : Binder α} {y : Binder β} {Q : α → β → Prop}

theorem pure {a : α} {b : β} (h : Q a b) : Binds ρ p p (Pure.pure a) (Pure.pure b) Q :=
  fun _ _ hs => ⟨hs, fun hr => ⟨hr, h⟩⟩

theorem bind {f : α → Binder γ} {g : β → Binder δ} {R : γ → δ → Prop} (h : Binds ρ p p' x y Q)
    (hf : ∀ a b, Binds ρ p' p'' (f a) (g b) fun c d => Q a b → R c d) :
    Binds ρ p p'' (x >>= f) (y >>= g) R := by
  intro s s' hs
  obtain ⟨hfit, hq⟩ := h s s' hs
  obtain ⟨hfit', hr⟩ := hf _ _ _ _ hfit
  refine ⟨hfit', fun hreports => ?_⟩
  obtain ⟨hreports', hr⟩ := hr hreports
  obtain ⟨hreports, hq⟩ := hq hreports'
  exact ⟨hreports, hr hq⟩

theorem child {i j : Nat} (h : Binds ρ (p.child i) (p'.child j) x y Q) : Binds ρ p p' x y Q := h

theorem entered {i : Nat} (h : Binds ρ (p.child i) p' x y Q) : Binds ρ p p' x y Q := h

theorem weaken (h : Binds ρ p p' x y Q) {R : α → β → Prop} (hr : ∀ a b, Q a b → R a b) :
    Binds ρ p p' x y R := by
  intro s s' hs
  obtain ⟨hfit, hq⟩ := h s s' hs
  exact ⟨hfit, fun hreports => ⟨(hq hreports).1, hr _ _ (hq hreports).2⟩⟩

theorem complain {n n' : Name} {c c' : Complaint} :
    Binds ρ p p (Binding.complain n c) (Binding.complain n' c') fun _ _ => False := by
  intro s s' hs
  refine ⟨{ hs with reports := ?_ }, fun h => ?_⟩
  · show (_ ++ _ : List Report).length = (_ ++ _ : List Report).length
    rw [List.length_append, List.length_append, hs.reports]
    rfl
  · exact absurd h (List.append_ne_nil_of_right_ne_nil _ (List.cons_ne_nil _ _))

theorem get_bind {f : Context → Binder γ} {g : Context → Binder δ} {R : γ → δ → Prop}
    (h : ∀ s s', Fits ρ p s s' → Binds ρ p p' (f s) (g s') R) :
    Binds ρ p p' (get >>= f) (get >>= g) R :=
  fun s s' hs => h s s' hs s s' hs

/-- A complaint about what surrounds a place; where it is not raised the surroundings are right. -/
theorem complainIf {c : Context → Prop} [DecidablePred c] {n n' : Name} {k k' : Complaint} {R : Prop}
    (same : ∀ s s', Fits ρ p s s' → (c s' ↔ c s)) (right : ∀ s s', Fits ρ p s s' → ¬ c s → R)
    (rest : Binds ρ p p' x y fun a b => R → Q a b) :
    Binds ρ p p' (get >>= fun s => if c s then Binding.complain n k >>= fun _ => x else x)
      (get >>= fun s => if c s then Binding.complain n' k' >>= fun _ => y else y) Q := by
  refine get_bind fun s s' hs => ?_
  by_cases hc : c s
  · simp only [if_pos hc, if_pos ((same s s' hs).mpr hc)]
    exact complain.bind fun _ _ => rest.weaken fun _ _ _ h => h.elim
  · simp only [if_neg hc, if_neg (mt (same s s' hs).mp hc)]
    exact rest.weaken fun _ _ hq => hq (right s s' hs hc)

theorem occur {use : Use} (name : Name) {renamed : String} {line : Nat}
    (h : UseRespected ρ p name.text renamed) :
    Binds ρ p p (Binding.occur use name) (Binding.occur use ⟨renamed, line⟩)
      fun site site' => site' = site ∧ site = p.site name.text := by
  refine get_bind fun s s' hs => ?_
  have hd := hs.scopes.distance? name.text
  have hd' := hs.scopes.renamedDistance? renamed
  rw [show p.layers.findIdx? _ = _ from h.distance] at hd'
  simp only [hd, hd']
  simp only [Position.distance?]
  cases hf : p.layers.findIdx? fun l => l.holds name.text with
  | none => exact pure ⟨rfl, by simp only [Position.site, Position.distance?, hf]⟩
  | some d =>
    intro t t' ht
    obtain ⟨hlt, _⟩ := List.findIdx?_eq_some_iff_getElem.mp hf
    have hl := List.getElem?_eq_getElem hlt
    have advanced := ht.scopes.advance hl (h.local_ d _ hf hl) .read
    refine ⟨{ ht with scopes := ?_, occurrences := ?_ }, fun hr => ⟨hr, rfl, ?_⟩⟩
    · show ScopesFit ρ p.layers (if use = .assign then t.scopes else _)
        (if use = .assign then t'.scopes else _)
      split
      · exact ht.scopes
      · exact advanced
    · show (_ ++ _ : List Occurrence).map _ = (_ ++ _ : List Occurrence).map _
      rw [List.map_append, List.map_append, ht.occurrences]
      rfl
    · show Site.local_ d = _
      simp only [Position.site, Position.distance?, hf]

/-- A name stands for the same declaration of the innermost scope, if for any. -/
theorem find?_innermost {key renamed : String} {l : Layer} {layers : List Layer} {scope : Scope}
    (hp : p.layers = l :: layers) (h : UseRespected ρ p key renamed)
    (holds : ∀ key, scope.holds key = l.holds key) :
    (ρ.scope l.region scope).find? renamed = (scope.find? key).map (ρ.local_ l.region) := by
  have hd := h.distance
  simp only [Position.renamedDistance?, Position.distance?, hp, List.findIdx?_cons,
    ← renamed_holds holds, ← holds] at hd
  cases hk : scope.holds key with
  | true =>
    rw [h.local_ 0 l (by simp [Position.distance?, hp, List.findIdx?_cons, ← holds, hk])
      (by simp [hp])]
    exact Renaming.find?_scope scope key
  | false =>
    have hr : (ρ.scope l.region scope).holds renamed = false := by
      cases hr : (ρ.scope l.region scope).holds renamed with
      | false => rfl
      | true =>
        rw [hr, hk] at hd
        cases hi : layers.findIdx? fun l => l.holds key with
        | none => simp [hi] at hd
        | some i => simp [hi] at hd
    rw [Scope.holds, Option.isSome_eq_false_iff, Option.isNone_iff_eq_none] at hk hr
    rw [hk, hr]
    rfl

theorem checkInitialized {name : Name} {renamed : String} {line : Nat}
    (h : UseRespected ρ p name.text renamed) :
    Binds ρ p p (Binding.checkInitialized name) (Binding.checkInitialized ⟨renamed, line⟩)
      fun _ _ => True := by
  refine get_bind fun s s' hs => ?_
  have hscopes := hs.scopes
  generalize s.scopes = scopes at hscopes
  generalize s'.scopes = scopes' at hscopes
  generalize hp : p.layers = layers at hscopes
  cases hscopes with
  | nil => exact pure trivial
  | @cons l scope layers scopes scopes' holds outer =>
    simp only [find?_innermost hp h holds]
    cases scope.find? name.text with
    | none => exact pure trivial
    | some l =>
      simp only [Option.map_some, Renaming.local_]
      split
      · exact complain.weaken fun _ _ h => h.elim
      · exact pure trivial

end Binds

theorem declare_run {s : Context} {scope : Scope} {outer : List Scope} {name : Name}
    (h : s.scopes = scope :: outer) :
    ((Binding.declare name).run s).run.2 =
      { s with
        scopes := scope.declare name :: outer
        reports := s.reports ++ if scope.holds name.text then
          [⟨name.line, .atToken name.text, .declaredTwice⟩] else [] } := by
  cases s
  subst h
  simp only [Binding.declare, StateT.run_bind, StateT.run_get, pure_bind]
  by_cases hk : scope.holds name.text = true
  · simp only [if_pos hk]
    rfl
  · simp only [if_neg hk, List.append_nil]
    rfl

theorem define_run {s : Context} {scope : Scope} {outer : List Scope} {name : Name}
    (h : s.scopes = scope :: outer) :
    ((Binding.define name).run s).run.2 =
      { s with scopes := scope.advance name.text .defined :: outer } := by
  cases s
  cases h
  rfl

theorem Layer.holds_declare (l : Layer) (name : Name) (key : String) :
    (l.declare name).holds key = (name.text == key || l.holds key) := by
  simp only [Layer.holds, Layer.names, Layer.declare, List.any_append, List.any_cons]
  cases name.text == key <;> cases l.pending.any fun n => n.text == key <;> rfl

theorem Layer.holds_pend (l : Layer) (name : Name) (key : String) :
    Layer.holds { l with pending := name :: l.pending } key = (l.declare name).holds key := by
  rw [holds_declare]
  rfl

theorem DeclarationRespected.declare {p : Position} {name : Name}
    (h : DeclarationRespected ρ p name) : DeclarationRespected ρ (p.declare name) name := by
  unfold DeclarationRespected at h ⊢
  simp only [Position.declare, Position.onInner]
  cases hl : p.layers with
  | nil => rw [hl] at h; exact h
  | cons l outer => rw [hl] at h; exact h

theorem Fits.pend {p : Position} {name : Name} {s s' : Context} :
    Fits ρ (p.pend name) s s' ↔ Fits ρ (p.declare name) s s' := by
  have scopes : ScopesFit ρ (p.pend name).layers s.scopes s'.scopes ↔
      ScopesFit ρ (p.declare name).layers s.scopes s'.scopes := by
    simp only [Position.pend, Position.declare, Position.onInner]
    cases p.layers with
    | nil => exact Iff.rfl
    | cons l outer =>
      generalize s.scopes = scopes
      generalize s'.scopes = scopes'
      constructor
      · rintro ⟨⟩
        rename_i holds outer
        exact .cons (l := l.declare name) (fun key => (holds key).trans (l.holds_pend name key)) outer
      · rintro ⟨⟩
        rename_i holds outer
        exact .cons (l := { l with pending := name :: l.pending })
          (fun key => (holds key).trans (l.holds_pend name key).symm) outer
  exact ⟨fun h => { h with scopes := scopes.mp h.scopes },
    fun h => { h with scopes := scopes.mpr h.scopes }⟩

theorem declareAndDefine_run {s : Context} {scope : Scope} {outer : List Scope} (name : Name)
    (h : s.scopes = scope :: outer) :
    ((Binding.declareAndDefine name).run s).run.2 =
      { s with
        scopes := (scope.declare name).advance name.text .defined :: outer
        reports := s.reports ++ if scope.holds name.text then
          [⟨name.line, .atToken name.text, .declaredTwice⟩] else [] } := by
  show ((Binding.define name).run ((Binding.declare name).run s).run.2).run.2 = _
  rw [declare_run h, define_run rfl]

namespace Binds

variable {p p' : Position}

theorem declare {name : Name} (h : DeclarationRespected ρ p name) :
    Binds ρ p (p.declare name) (Binding.declare name) (Binding.declare (ρ.name name))
      fun _ _ => p.Fresh name := by
  intro s s' hs
  have hscopes := hs.scopes
  unfold DeclarationRespected at h
  generalize hl : p.layers = layers at hscopes h
  generalize hc : s.scopes = scopes at hscopes
  generalize hc' : s'.scopes = scopes' at hscopes
  cases hscopes with
  | nil =>
    have hrun : ∀ (n : Name) (s : Context), s.scopes = [] → (Binding.declare n).run s = ((), s) := by
      intro n s hs
      cases s
      subst hs
      rfl
    rw [hrun name s hc, hrun (ρ.name name) s' hc']
    refine ⟨{ hs with scopes := ?_ }, fun hr => ⟨hr, ?_⟩⟩
    · show ScopesFit ρ _ s.scopes s'.scopes
      rw [Position.declare, Position.onInner, hl, hc, hc']
      exact .nil
    · intro l hl'
      rw [hl] at hl'
      cases hl'
  | @cons l scope outer _ _ holds rest =>
    rw [declare_run hc, declare_run hc', Renaming.declare_scope h,
      show (ρ.name name).text = ρ.key l.region name.text from h, Renaming.holds_scope, holds]
    refine ⟨{ hs with scopes := ?_, reports := ?_ }, fun hr => ?_⟩
    · rw [Position.declare, Position.onInner, hl]
      exact .cons (l := l.declare name)
        (fun key => by rw [Scope.holds_declare, Layer.holds_declare, holds]) rest
    · simp only [List.length_append, hs.reports]
      split <;> rfl
    · obtain ⟨hr, hk⟩ := List.append_eq_nil_iff.mp hr
      refine ⟨hr, fun l' hl' => ?_⟩
      rw [hl] at hl'
      cases hl'
      cases hk' : l.holds name.text with
      | false => rfl
      | true => simp [hk'] at hk

theorem define {name : Name} (h : DeclarationRespected ρ p name) :
    Binds ρ p p (Binding.define name) (Binding.define (ρ.name name)) fun _ _ => True := by
  intro s s' hs
  have hscopes := hs.scopes
  unfold DeclarationRespected at h
  generalize hl : p.layers = layers at hscopes h
  generalize hc : s.scopes = scopes at hscopes
  generalize hc' : s'.scopes = scopes' at hscopes
  cases hscopes with
  | nil =>
    have hrun : ∀ (n : Name) (s : Context), s.scopes = [] → (Binding.define n).run s = ((), s) := by
      intro n s hs
      cases s
      subst hs
      rfl
    rw [hrun name s hc, hrun (ρ.name name) s' hc']
    exact ⟨hs, fun hr => ⟨hr, trivial⟩⟩
  | @cons l scope outer _ _ holds rest =>
    rw [define_run hc, define_run hc', show (ρ.name name).text = ρ.key l.region name.text from h,
      Renaming.advance_scope]
    refine ⟨{ hs with scopes := ?_ }, fun hr => ⟨hr, trivial⟩⟩
    rw [hl]
    exact .cons (fun key => by rw [Scope.holds_advance, holds]) rest

/-- The initializer of a variable is bound where the variable is declared already. -/
theorem pend {name : Name} {x : Binder α} {y : Binder β} {Q : α → β → Prop}
    (h : Binds ρ (p.pend name) (p.pend name) x y Q) :
    Binds ρ (p.declare name) (p.declare name) x y Q := by
  intro s s' hs
  obtain ⟨fits, accepted⟩ := h s s' (Fits.pend.mpr hs)
  exact ⟨Fits.pend.mp fits, accepted⟩

theorem declareAndDefine {name : Name} (h : DeclarationRespected ρ p name) :
    Binds ρ p (p.declare name) (Binding.declareAndDefine name)
      (Binding.declareAndDefine (ρ.name name)) fun _ _ => p.Fresh name := by
  exact (declare h).bind fun _ _ => (define h.declare).weaken fun _ _ _ hf => hf

end Binds

theorem declareParams_run {r : Region} {params : List Name}
    (h : ∀ n ∈ params, ρ.text n = ρ.key r n.text) (s s' : Context) (scope : Scope)
    {outer outer' : List Scope} (hc : s.scopes = scope :: outer)
    (hc' : s'.scopes = ρ.scope r scope :: outer') (hr : s'.reports.length = s.reports.length) :
    let t := ((params.forM Binding.declareAndDefine).run s).run.2
    let t' := (((params.map ρ.name).forM Binding.declareAndDefine).run s').run.2
    ∃ scope', t = { s with scopes := scope' :: outer, reports := t.reports } ∧
      t' = { s' with scopes := ρ.scope r scope' :: outer', reports := t'.reports } ∧
      t'.reports.length = t.reports.length ∧
      (∀ key, scope'.holds key = (params.any (fun n => n.text == key) || scope.holds key)) ∧
      (t.reports = [] → s.reports = [] ∧ (params.map Name.text).Nodup ∧
        ∀ n ∈ params, scope.holds n.text = false) := by
  induction params generalizing s s' scope with
  | nil =>
    exact ⟨scope, by rw [← hc]; rfl, by rw [← hc']; rfl, hr, fun _ => rfl,
      fun ht => ⟨ht, List.nodup_nil, by simp⟩⟩
  | cons n params ih =>
    have key : ρ.text n = ρ.key r n.text := h n List.mem_cons_self
    have first := declareAndDefine_run n hc
    have first' := declareAndDefine_run (ρ.name n) hc'
    rw [show (ρ.name n).text = ρ.key r n.text from key, Renaming.declare_scope key,
      Renaming.advance_scope, Renaming.holds_scope] at first'
    obtain ⟨scope', ht, ht', hlength, holds, accepted⟩ := ih
      (fun k hk => h k (List.mem_cons_of_mem _ hk)) _ _ _ (congrArg Context.scopes first)
      (congrArg Context.scopes first') (by
        rw [first, first']
        simp only [List.length_append, hr]
        split <;> rfl)
    refine ⟨scope', ?_, ?_, hlength, fun k => ?_, fun hreports => ?_⟩
    · refine Eq.trans ht ?_
      show _ = { s with
        scopes := scope' :: outer
        reports := ((params.forM Binding.declareAndDefine).run
          ((Binding.declareAndDefine n).run s).run.2).run.2.reports }
      rw [first]
    · refine Eq.trans ht' ?_
      show _ = { s' with
        scopes := ρ.scope r scope' :: outer'
        reports := (((params.map ρ.name).forM Binding.declareAndDefine).run
          ((Binding.declareAndDefine (ρ.name n)).run s').run.2).run.2.reports }
      rw [first']
    · rw [holds, Scope.holds_advance, Scope.holds_declare, List.any_cons]
      cases n.text == k <;> cases params.any fun n => n.text == k <;> rfl
    · obtain ⟨hs, nodup, fresh⟩ := accepted hreports
      rw [first] at hs
      obtain ⟨hs, hn⟩ := List.append_eq_nil_iff.mp hs
      have hn : scope.holds n.text = false := by
        cases hk : scope.holds n.text with
        | false => rfl
        | true => simp [hk] at hn
      have apart : ∀ k ∈ params, (n.text == k.text) = false ∧ scope.holds k.text = false := by
        intro k hk
        have := fresh k hk
        rwa [Scope.holds_advance, Scope.holds_declare, Bool.or_eq_false_iff] at this
      refine ⟨hs, List.nodup_cons.mpr ⟨fun hmem => ?_, nodup⟩, fun k hk => ?_⟩
      · obtain ⟨k, hk, htext⟩ := List.mem_map.mp hmem
        have := (apart k hk).1
        rw [htext, beq_self_eq_true] at this
        cases this
      · rcases List.mem_cons.mp hk with rfl | hk
        · exact hn
        · exact (apart k hk).2

def closeScope (s : Context) : Context :=
  match s.scopes with
  | [] => s
  | scope :: outer => { s with scopes := outer, reports := s.reports ++ scope.unused }

theorem FitsIn.close {p q : Position} {s s' : Context} (h : Fits ρ q s s') (inner : p.Inner q) :
    Fits ρ p (closeScope s) (closeScope s') ∧ ((closeScope s).reports = [] → s.reports = []) := by
  obtain ⟨l, hl⟩ := inner.layers
  have hscopes := h.scopes
  rw [hl] at hscopes
  unfold closeScope
  generalize hc : s.scopes = scopes at hscopes
  generalize hc' : s'.scopes = scopes' at hscopes
  cases hscopes with
  | @cons _ scope _ outer outer' holds rest =>
    refine ⟨{ h with
      scopes := rest
      loops := inner.inLoop ▸ h.loops
      enclosing := inner.inFunction ▸ h.enclosing
      inClass := inner.inClass ▸ h.inClass
      reports := ?_ }, fun hr => (List.append_eq_nil_iff.mp hr).1⟩
    simp only [List.length_append, h.reports, Renaming.unused_scope]

namespace Binds

variable {p p' : Position} {x : Binder α} {y : Binder β} {Q : α → β → Prop}

/-- What is bound in a scope of its own, seen from the runs inside. -/
theorem inScope_run {first first' : Scope}
    (h : ∀ s s', Fits ρ p s s' →
      let t := (x.run { s with scopes := first :: s.scopes }).run
      let t' := (y.run { s' with scopes := first' :: s'.scopes }).run
      (∃ q, p.Inner q ∧ Fits ρ q t.2 t'.2) ∧ (t.2.reports = [] → s.reports = [] ∧ Q t.1 t'.1)) :
    Binds ρ p p (Binding.inScope first x) (Binding.inScope first' y) Q := by
  intro s s' hs
  obtain ⟨⟨q, inner, fits⟩, accepted⟩ := h s s' hs
  obtain ⟨closed, reports⟩ := fits.close inner
  exact ⟨closed, fun hr => accepted (reports hr)⟩

theorem inScope {q q' : Position} {l : Layer} {first first' : Scope}
    (h : Binds ρ q q' x y Q) (hq : p.Inner q) (hl : q.layers = l :: p.layers)
    (holds : ∀ key, first.holds key = l.holds key) (renamed : first' = ρ.scope l.region first)
    (hq' : p.Inner q') : Binds ρ p p (Binding.inScope first x) (Binding.inScope first' y) Q := by
  refine inScope_run fun s s' hs => ?_
  have fits : Fits ρ q { s with scopes := first :: s.scopes }
      { s' with scopes := first' :: s'.scopes } := by
    refine { hs with
      scopes := ?_
      loops := hq.inLoop ▸ hs.loops
      enclosing := hq.inFunction ▸ hs.enclosing
      inClass := hq.inClass ▸ hs.inClass }
    rw [hl, renamed]
    exact .cons holds hs.scopes
  obtain ⟨fits', accepted⟩ := h _ _ fits
  exact ⟨⟨q', hq', fits'⟩, accepted⟩

theorem inLoop (h : Binds ρ p.loop p.loop x y Q) :
    Binds ρ p p (Binding.inLoop x) (Binding.inLoop y) Q := by
  intro s s' hs
  have fits : Fits ρ p.loop { s with loops := s.loops + 1 } { s' with loops := s'.loops + 1 } :=
    { hs with
      loops := ⟨fun _ => rfl, fun _ => Nat.succ_ne_zero _⟩
      loops_eq := congrArg (· + 1) hs.loops_eq }
  obtain ⟨fits', accepted⟩ := h _ _ fits
  exact ⟨{ fits' with loops := hs.loops, loops_eq := hs.loops_eq }, accepted⟩

/-- A function around which nothing can be jumped out of. -/
theorem inFunction {enclosing : Enclosing} {params : List Name} {body : List RawStmt}
    {q : Position} (some : enclosing ≠ .none)
    (known : ∀ n ∈ params, ρ.text n = ρ.key ⟨p.path, params, declaredNames body⟩ n.text)
    (h : Binds ρ (p.function params body) q x y Q)
    (hq : Position.Inner { p with inLoop := false, inFunction := true } q) :
    Binds ρ p p
      (Binding.inFunction enclosing (params.forM Binding.declareAndDefine >>= fun _ => x))
      (Binding.inFunction enclosing
        ((params.map ρ.name).forM Binding.declareAndDefine >>= fun _ => y))
      fun a b => (params.map Name.text).Nodup ∧ Q a b := by
  have inner : Binds ρ { p with inLoop := false, inFunction := true }
      { p with inLoop := false, inFunction := true }
      (Binding.inScope [] (params.forM Binding.declareAndDefine >>= fun _ => x))
      (Binding.inScope [] ((params.map ρ.name).forM Binding.declareAndDefine >>= fun _ => y))
      fun a b => (params.map Name.text).Nodup ∧ Q a b := by
    refine inScope_run fun s s' hs => ?_
    obtain ⟨scope, ht, ht', hlength, holds, accepted⟩ := declareParams_run
      (r := ⟨p.path, params, declaredNames body⟩) known
      { s with scopes := [] :: s.scopes } { s' with scopes := [] :: s'.scopes } [] rfl rfl hs.reports
    have fits : Fits ρ (p.function params body)
        ((params.forM Binding.declareAndDefine).run { s with scopes := [] :: s.scopes }).run.2
        (((params.map ρ.name).forM Binding.declareAndDefine).run
          { s' with scopes := [] :: s'.scopes }).run.2 := by
      rw [ht, ht']
      refine { hs with scopes := .cons (l := .opened _) (fun key => ?_) hs.scopes, reports := hlength }
      rw [holds]
      exact Bool.or_false _
    obtain ⟨fits', accepted'⟩ := h _ _ fits
    refine ⟨⟨q, hq, fits'⟩, fun hr => ?_⟩
    obtain ⟨hr', hQ⟩ := accepted' hr
    obtain ⟨hr'', nodup, _⟩ := accepted hr'
    exact ⟨hr'', nodup, hQ⟩
  intro s s' hs
  have fits : Fits ρ { p with inLoop := false, inFunction := true }
      { s with enclosing := enclosing, loops := 0 } { s' with enclosing := enclosing, loops := 0 } :=
    { hs with
      loops := ⟨fun h => absurd rfl h, fun h => by cases h⟩
      enclosing := ⟨fun _ => rfl, fun _ => some⟩
      loops_eq := rfl
      enclosing_eq := rfl }
  obtain ⟨fits', accepted⟩ := inner _ _ fits
  exact ⟨{ fits' with
    loops := hs.loops
    enclosing := hs.enclosing
    loops_eq := hs.loops_eq
    enclosing_eq := hs.enclosing_eq }, accepted⟩

theorem inClass {name : Name} {q : Position} (declared : DeclarationRespected ρ p name)
    (receiver : ρ.key ⟨p.path, [thisName], []⟩ thisName.text = thisName.text)
    (h : Binds ρ (p.declare name).class_ q x y Q)
    (hq : Position.Inner { p.declare name with inClass := true } q) :
    Binds ρ p (p.declare name) (Binding.inClass name x) (Binding.inClass (ρ.name name) y)
      fun a b => p.Fresh name ∧ Q a b := by
  intro s s' hs
  have fits : Fits ρ { p with inClass := true } { s with inClass := true }
      { s' with inClass := true } :=
    { hs with inClass := rfl, inClass_eq := rfl }
  have methods : Binds ρ { p.declare name with inClass := true }
      { p.declare name with inClass := true } (Binding.inScope (Scope.ofClass name) x)
      (Binding.inScope (Scope.ofClass (ρ.name name)) y) Q := by
    refine inScope h ⟨⟨_, rfl⟩, rfl, rfl, rfl⟩ rfl (fun key => ?_) ?_ hq
    · rw [Scope.ofClass, Scope.holds_cons]
      rfl
    · exact congrArg (fun k => [Local.mk k (ρ.name name) .read]) receiver.symm
  obtain ⟨fits', accepted⟩ := (declareAndDefine (p := { p with inClass := true }) declared).bind
    (fun _ _ => methods.weaken fun _ _ hQ hf => (⟨hf, hQ⟩ : p.Fresh name ∧ _)) _ _ fits
  exact ⟨{ fits' with inClass := hs.inClass, inClass_eq := hs.inClass_eq }, accepted⟩

end Binds

end Lexical

end Script
