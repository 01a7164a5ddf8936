import Script.Proofs.Lexical.Regions

/-! Giving a local another name.
If a declaration and what mentions it are given a name that the program does not use, nothing comes
to refer to anything else: the new name cannot be hidden, and it hides nothing. -/
namespace Script

open Lexical

namespace Lexical

variable {β : Type}

structure Declaration where
  region : Region
  name : Name
deriving Repr, DecidableEq

/-- The variables and parameters that a node declares in a region. -/
def localsAt : Position × Node β → List Declaration
  | (p, .stmt (.var name _)) => (p.layers.head?.map fun l => ⟨l.region, name⟩).toList
  | (p, .code params body) => params.map fun n => ⟨⟨p.path, params, declaredNames body⟩, n⟩
  | _ => []

def Position.region? (p : Position) (key : String) : Option Region :=
  (p.layers.find? fun l => l.holds key).map Layer.region

namespace Declaration

/-- The name of a node that refers to the declaration. -/
def mentionedAt (d : Declaration) : Position × Node β → Option Name
  | (p, .expr (.variable name _)) =>
    if p.region? name.text = some d.region ∧ name.text = d.name.text then some name else none
  | (p, .expr (.assign name _ _)) =>
    if p.region? name.text = some d.region ∧ name.text = d.name.text then some name else none
  | _ => none

/-- The lines of a declaration and of all that refers to it. -/
def lines (d : Declaration) (nodes : List (Position × Node β)) : List Nat :=
  d.name.line :: (nodes.filterMap d.mentionedAt).map Name.line

/-- Takes one text for another and the other way round. -/
def swap (a b key : String) : String := if key = a then b else if key = b then a else key

theorem swap_injective (a b k k' : String) (h : swap a b k = swap a b k') : k = k' := by
  unfold swap at h
  split at h <;> split at h <;> (try split at h) <;> (try split at h) <;> simp_all

/-- The renaming of the lines of a declaration, and of its key in its region. -/
def toRenaming (d : Declaration) (lines : List Nat) (fresh : String) (line : Nat → Nat) :
    Renaming where
  text n := if n.line ∈ lines ∧ n.text = d.name.text then fresh else n.text
  line := line
  key r k := if r = d.region then swap d.name.text fresh k else k
  key_injective r a b h := by
    split at h
    · exact swap_injective _ _ a b h
    · exact h

end Declaration

theorem findIdx?_eq_of_first {α : Type} {P Q : α → Bool} {l : List α}
    (le : ∀ x ∈ l, P x = true → Q x = true) (first : ∀ x, l.find? Q = some x → P x = true) :
    l.findIdx? P = l.findIdx? Q := by
  induction l with
  | nil => rfl
  | cons a l ih =>
    rw [List.findIdx?_cons, List.findIdx?_cons]
    cases hq : Q a with
    | true => rw [first a (List.find?_cons_of_pos hq), if_pos rfl, if_pos rfl]
    | false =>
      have hp : P a = false := by
        cases hp : P a with
        | false => rfl
        | true =>
          have := le a List.mem_cons_self hp
          rw [hq] at this
          cases this
      rw [hp, ih (fun x hx => le x (List.mem_cons_of_mem _ hx)) fun x hx =>
        first x ((List.find?_cons_of_neg (by rw [hq]; exact Bool.noConfusion)).trans hx)]

theorem region?_of_distance? {p : Position} {key : String} {distance : Nat} {l : Layer}
    (h : p.distance? key = some distance) (hl : p.layers[distance]? = some l) :
    p.region? key = some l.region := by
  have found : p.layers.find? (fun l => l.holds key) = some l := by
    unfold Position.distance? at h
    rw [List.findIdx?_eq_some_iff_getElem] at h
    obtain ⟨hlt, hholds, hinner⟩ := h
    obtain ⟨_, rfl⟩ := List.getElem?_eq_some_iff.mp hl
    rw [List.find?_eq_some_iff_getElem]
    exact ⟨hholds, distance, hlt, rfl, fun j hj => by simpa using hinner j hj⟩
  rw [Position.region?, found]
  rfl

theorem region?_eq_none {p : Position} {key : String} (h : p.distance? key = none) :
    p.region? key = none := by
  unfold Position.distance? at h
  rw [List.findIdx?_eq_none_iff] at h
  rw [Position.region?, List.find?_eq_none.mpr fun l hl => by rw [h l hl]; exact Bool.noConfusion]
  rfl

/-- A renamed key is found where the key was if only the key becomes it in each layer, and does so
in the layer where it was found. -/
theorem renamedDistance?_eq {ρ : Renaming} {p : Position} {key renamed : String}
    (only : ∀ l ∈ p.layers, ∀ n ∈ l.names, ρ.key l.region n.text = renamed → n.text = key)
    (found : ∀ l, p.layers.find? (fun l => l.holds key) = some l → ρ.key l.region key = renamed) :
    p.renamedDistance? ρ renamed = p.distance? key := by
  apply findIdx?_eq_of_first
  · intro l hl hany
    obtain ⟨n, hn, htext⟩ := List.any_eq_true.mp hany
    exact List.any_eq_true.mpr ⟨n, hn, beq_iff_eq.mpr (only l hl n hn (beq_iff_eq.mp htext))⟩
  · intro l hfind
    have holds : l.holds key = true := List.find?_some (p := fun l : Layer => l.holds key) hfind
    obtain ⟨n, hn, htext⟩ := List.any_eq_true.mp holds
    refine List.any_eq_true.mpr ⟨n, hn, beq_iff_eq.mpr ?_⟩
    rw [beq_iff_eq.mp htext]
    exact found l hfind

/-- A declaration of a program, each of whose names stands there once, and a name of no other use
in it. -/
structure Renamable (nodes : List (Position × Node β)) (d : Declaration) (fresh : String) :
    Prop where
  declared : ∃ x ∈ nodes, d ∈ localsAt x
  once : ∀ m, namesOf m nodes ≤ 1
  unused : ∀ x ∈ nodes, ∀ m ∈ x.2.names, m.text ≠ fresh
  orderly : ∀ x ∈ nodes, Orderly (fun m => m.text ≠ fresh) x
  this_ : d.name.text ≠ thisName.text
  this_fresh : fresh ≠ thisName.text

theorem mem_names_of_localsAt {d : Declaration} {x : Position × Node β} (h : d ∈ localsAt x) :
    d.name ∈ x.2.names := by
  obtain ⟨p, node⟩ := x
  unfold localsAt at h
  split at h
  · rename_i h'
    cases h'
    cases hp : p.layers.head? with
    | none => rw [hp] at h; cases h
    | some l =>
      rw [hp] at h
      rw [List.mem_singleton.mp h]
      exact List.mem_singleton_self _
  · rename_i h'
    cases h'
    obtain ⟨n, hn, rfl⟩ := List.mem_map.mp h
    exact hn
  · cases h

theorem mem_names_of_mentionedAt {d : Declaration} {x : Position × Node β} {m : Name}
    (h : d.mentionedAt x = some m) : m ∈ x.2.names ∧ m.text = d.name.text := by
  unfold Declaration.mentionedAt at h
  split at h
  · split at h
    · cases h
      exact ⟨List.mem_singleton_self _, ‹_ ∧ _›.2⟩
    · cases h
  · split at h
    · cases h
      exact ⟨List.mem_singleton_self _, ‹_ ∧ _›.2⟩
    · cases h
  · cases h

/-- A name that stands once in the nodes stands at one of them. -/
theorem eq_of_namesOf {nodes : List (Position × Node β)} {m : Name} (once : namesOf m nodes ≤ 1)
    {x y : Position × Node β} (hx : x ∈ nodes) (hy : y ∈ nodes) (hm : m ∈ x.2.names)
    (hm' : m ∈ y.2.names) : x = y := by
  have held : ∀ {nodes : List (Position × Node β)} {x}, x ∈ nodes → m ∈ x.2.names →
      0 < namesOf m nodes := fun hx hm =>
    List.count_pos_iff.mpr (List.mem_flatMap.mpr ⟨_, hx, hm⟩)
  induction nodes with
  | nil => cases hx
  | cons z nodes ih =>
    rw [namesOf_cons] at once
    rcases List.mem_cons.mp hx with hxz | hx' <;> rcases List.mem_cons.mp hy with hyz | hy'
    · exact hxz.trans hyz.symm
    · have first := List.count_pos_iff.mpr (hxz ▸ hm)
      have := held hy' hm'
      omega
    · have first := List.count_pos_iff.mpr (hyz ▸ hm')
      have := held hx' hm
      omega
    · exact ih (by omega) hx' hy'

namespace Renamable

variable {nodes : List (Position × Node β)} {d : Declaration} {fresh : String}

/-- The names of the lines are those of the declaration and of what refers to it. -/
theorem selected_iff (h : Renamable nodes d fresh) {x : Position × Node β} {m : Name}
    (hx : x ∈ nodes) (hm : m ∈ x.2.names) :
    m.line ∈ d.lines nodes ∧ m.text = d.name.text ↔
      m = d.name ∧ d ∈ localsAt x ∨ d.mentionedAt x = some m := by
  constructor
  · rintro ⟨hline, htext⟩
    rcases List.mem_cons.mp hline with hline | hline
    · obtain ⟨y, hy, hd⟩ := h.declared
      have same : m = d.name := by
        cases m
        cases hn : d.name
        rw [hn] at hline htext
        cases hline
        cases htext
        rfl
      have := eq_of_namesOf (h.once m) hx hy hm (same ▸ mem_names_of_localsAt hd)
      exact .inl ⟨same, this ▸ hd⟩
    · obtain ⟨k, hk, hline⟩ := List.mem_map.mp hline
      obtain ⟨y, hy, hmention⟩ := List.mem_filterMap.mp hk
      obtain ⟨hky, hktext⟩ := mem_names_of_mentionedAt hmention
      have same : m = k := by
        cases m
        cases k
        simp only at hline htext hktext
        rw [htext, hktext, hline]
      have := eq_of_namesOf (h.once m) hx hy hm (same ▸ hky)
      exact .inr (this ▸ same ▸ hmention)
  · rintro (⟨rfl, _⟩ | hmention)
    · exact ⟨List.mem_cons_self, rfl⟩
    · exact ⟨List.mem_cons_of_mem _ (List.mem_map_of_mem
        (List.mem_filterMap.mpr ⟨x, hx, hmention⟩)), (mem_names_of_mentionedAt hmention).2⟩

/-- The declaration is a name of its region, whose names differ. -/
theorem in_region (h : Renamable nodes d fresh) :
    d.name ∈ d.region.names ∧ (d.region.names.map Name.text).Nodup := by
  obtain ⟨⟨p, node⟩, hx, hd⟩ := h.declared
  have orderly := h.orderly _ hx
  unfold localsAt at hd
  split at hd
  · rename_i h'
    cases h'
    cases hp : p.layers.head? with
    | none => rw [hp] at hd; cases hd
    | some l =>
      rw [hp] at hd
      cases List.mem_singleton.mp hd
      exact ⟨orderly.declared _ _ rfl rfl l hp,
        (orderly.around l (List.mem_of_head? hp)).distinct⟩
  · rename_i h'
    cases h'
    obtain ⟨n, hn, rfl⟩ := List.mem_map.mp hd
    exact ⟨List.mem_append_left _ hn, orderly.distinct _ _ rfl⟩
  · cases hd

variable {lines : List Nat} {line : Nat → Nat} {r : Region} {key : String}

theorem key_region : (d.toRenaming lines fresh line).key d.region d.name.text = fresh := by
  simp [Declaration.toRenaming, Declaration.swap]

theorem key_of_ne_region (hr : r ≠ d.region) : (d.toRenaming lines fresh line).key r key = key := by
  simp [Declaration.toRenaming, hr]

theorem key_of_ne (hk : key ≠ d.name.text) (hf : key ≠ fresh) :
    (d.toRenaming lines fresh line).key r key = key := by
  simp [Declaration.toRenaming, Declaration.swap, hk, hf]

theorem key_eq_fresh (hf : key ≠ fresh) :
    (d.toRenaming lines fresh line).key r key = fresh ↔ r = d.region ∧ key = d.name.text := by
  by_cases hr : r = d.region
  · by_cases hk : key = d.name.text
    · rw [hr, hk, key_region]
      simp
    · rw [key_of_ne hk hf]
      simp [hf, hk]
  · rw [key_of_ne_region hr]
    simp [hf, hr]

theorem key_eq_self (hn : d.name.text ≠ fresh) (hf : key ≠ fresh) :
    (d.toRenaming lines fresh line).key r key = d.name.text ↔
      r ≠ d.region ∧ key = d.name.text := by
  by_cases hr : r = d.region
  · by_cases hk : key = d.name.text
    · rw [hr, hk, key_region]
      simp [hn.symm]
    · rw [key_of_ne hk hf]
      simp [hr, hk]
  · rw [key_of_ne_region hr]
    simp [hr]

theorem key_eq_other {other : String} (ho : other ≠ d.name.text) (hof : other ≠ fresh)
    (hf : key ≠ fresh) :
    (d.toRenaming lines fresh line).key r key = other ↔ key = other := by
  by_cases hk : key = d.name.text
  · by_cases hr : r = d.region
    · rw [hr, hk, key_region]
      exact ⟨fun h => absurd h.symm hof, fun h => absurd h.symm ho⟩
    · rw [key_of_ne_region hr]
  · rw [key_of_ne hk hf]

theorem name_ne_fresh (h : Renamable nodes d fresh) : d.name.text ≠ fresh := by
  obtain ⟨x, hx, hd⟩ := h.declared
  exact h.unused x hx d.name (mem_names_of_localsAt hd)

theorem use_respected (h : Renamable nodes d fresh) {p : Position}
    (hp : p.Orderly fun m => m.text ≠ fresh) {renamed : String} (hk : key ≠ fresh)
    (hr : renamed = if p.region? key = some d.region ∧ key = d.name.text then fresh else key) :
    UseRespected (d.toRenaming lines fresh line) p key renamed := by
  have names : ∀ l ∈ p.layers, ∀ n ∈ l.names, n.text ≠ fresh := fun l hl n hn =>
    ((hp l hl).names n hn).elim (fun e => e ▸ h.this_fresh.symm) fun hn => hn
  have region : ∀ l, p.layers.find? (fun l => l.holds key) = some l →
      p.region? key = some l.region := fun l hl => by rw [Position.region?, hl]; rfl
  refine ⟨?_, fun distance l hd hl => ?_, fun hd => ?_⟩
  · by_cases hkn : key = d.name.text
    · by_cases hregion : p.region? key = some d.region
      · rw [if_pos ⟨hregion, hkn⟩] at hr
        refine renamedDistance?_eq (fun l hl n hn htext => ?_) fun l hfind => ?_
        · rw [hr] at htext
          exact ((key_eq_fresh (names l hl n hn)).mp htext).2.trans hkn.symm
        · have hl := region l hfind
          rw [hregion, Option.some.injEq] at hl
          rw [hr, hkn, ← hl, key_region]
      · rw [if_neg fun hc => hregion hc.1] at hr
        refine renamedDistance?_eq (fun l hl n hn htext => ?_) fun l hfind => ?_
        · rw [hr, hkn] at htext
          exact ((key_eq_self h.name_ne_fresh (names l hl n hn)).mp htext).2.trans hkn.symm
        · rw [hr, key_of_ne_region fun e => hregion (e ▸ region l hfind)]
    · rw [if_neg fun hc => hkn hc.2] at hr
      refine renamedDistance?_eq (fun l hl n hn htext => ?_) fun l hfind => ?_
      · rw [hr] at htext
        exact (key_eq_other hkn hk (names l hl n hn)).mp htext
      · rw [hr, key_of_ne hkn hk]
  · rw [region?_of_distance? hd hl] at hr
    by_cases hkn : key = d.name.text
    · by_cases hregion : l.region = d.region
      · rw [hr, hregion, hkn, if_pos ⟨rfl, rfl⟩, key_region]
      · rw [hr, if_neg fun hc => hregion (Option.some.inj hc.1), key_of_ne_region hregion]
    · rw [hr, if_neg fun hc => hkn hc.2, key_of_ne hkn hk]
  · rw [hr, region?_eq_none hd, if_neg fun hc => nomatch hc.1]

/-- A name of a region is renamed as its key is there. -/
theorem text_eq_key (h : Renamable nodes d fresh) {m : Name} (hm : m.text ≠ fresh)
    (mem : m ∈ r.names)
    (selected : m.line ∈ lines ∧ m.text = d.name.text ↔ m = d.name ∧ r = d.region) :
    (d.toRenaming lines fresh line).text m = (d.toRenaming lines fresh line).key r m.text := by
  by_cases hr : r = d.region
  · by_cases hk : m.text = d.name.text
    · have same : m = d.name := eq_of_nodup_map h.in_region.2 (hr ▸ mem) h.in_region.1 hk
      rw [hr, hk, key_region]
      exact if_pos (selected.mpr ⟨same, hr⟩)
    · rw [key_of_ne hk hm]
      exact if_neg fun hc => hk hc.2
  · rw [key_of_ne_region hr]
    exact if_neg fun hc => hr (selected.mp hc).2

theorem declaration_respected (h : Renamable nodes d fresh) {p : Position} {m : Name}
    (hm : m.text ≠ fresh) (declares : p.Declares m)
    (selected : m.line ∈ lines ∧ m.text = d.name.text ↔
      m = d.name ∧ ∃ l ∈ p.layers.head?, l.region = d.region) :
    DeclarationRespected (d.toRenaming lines fresh line) p m := by
  unfold DeclarationRespected
  split
  · rename_i hl
    rw [hl] at selected
    exact if_neg fun hc => by
      obtain ⟨_, l, hl, _⟩ := selected.mp hc
      cases hl
  · rename_i l outer hl
    rw [hl] at selected
    refine h.text_eq_key hm (declares l (by rw [hl]; rfl)) ?_
    simpa using selected

theorem selected_local (h : Renamable nodes d fresh) {x : Position × Node β} (hx : x ∈ nodes)
    (mention : d.mentionedAt x = none) {m : Name} (hm : m ∈ x.2.names) :
    m.line ∈ d.lines nodes ∧ m.text = d.name.text ↔ m = d.name ∧ d ∈ localsAt x := by
  rw [h.selected_iff hx hm, mention]
  exact or_iff_left fun hd => nomatch hd

/-- The name of a node that declares no local and uses none keeps its text. -/
theorem kept (h : Renamable nodes d fresh) {x : Position × Node β} (hx : x ∈ nodes)
    (locals : localsAt x = []) (mention : d.mentionedAt x = none) {m : Name} (hm : m ∈ x.2.names) :
    ¬ (m.line ∈ d.lines nodes ∧ m.text = d.name.text) := by
  rw [h.selected_local hx mention hm, locals]
  exact fun hd => nomatch hd.2

theorem text_of_selected {m : Name} (hm : m.line ∈ lines ∧ m.text = d.name.text) :
    (d.toRenaming lines fresh line).text m = fresh := if_pos hm

theorem text_of_kept {m : Name} (hm : ¬ (m.line ∈ lines ∧ m.text = d.name.text)) :
    (d.toRenaming lines fresh line).text m = m.text := if_neg hm

/-- Giving a local a name that is not used respects every node. -/
theorem respected (h : Renamable nodes d fresh) (line : Nat → Nat) :
    ∀ x ∈ nodes, Respected (d.toRenaming (d.lines nodes) fresh line) x := by
  rintro ⟨p, node⟩ hx
  have around : p.Orderly fun m => m.text ≠ fresh := (h.orderly _ hx).around
  have use : ∀ name, name ∈ node.names →
      d.mentionedAt (p, node) =
        (if p.region? name.text = some d.region ∧ name.text = d.name.text then some name else none) →
      localsAt (p, node) = [] →
      UseRespected (d.toRenaming (d.lines nodes) fresh line) p name.text
        ((d.toRenaming (d.lines nodes) fresh line).text name) := by
    intro name hn mention locals
    refine h.use_respected around (h.unused _ hx name hn) ?_
    have selected := h.selected_iff hx hn
    rw [locals, mention] at selected
    by_cases hc : p.region? name.text = some d.region ∧ name.text = d.name.text
    · rw [if_pos hc] at selected ⊢
      exact if_pos (selected.mpr (.inr rfl))
    · rw [if_neg hc] at selected ⊢
      exact if_neg fun hs => by rcases selected.mp hs with ⟨_, hd⟩ | hd <;> cases hd
  -- A function or a class in the region cannot have the name, which stands only once.
  have other : ∀ name, name ∈ node.names → localsAt (p, node) = [] →
      d.mentionedAt (p, node) = none → p.Declares name →
      DeclarationRespected (d.toRenaming (d.lines nodes) fresh line) p name := by
    intro name hn locals mention declares
    refine h.declaration_respected (h.unused _ hx name hn) declares ?_
    refine ⟨fun hs => absurd hs (h.kept hx locals mention hn), ?_⟩
    rintro ⟨rfl, _⟩
    obtain ⟨y, hy, hd⟩ := h.declared
    have := eq_of_namesOf (h.once _) hx hy hn (mem_names_of_localsAt hd)
    rw [← this, locals] at hd
    cases hd
  cases node with
  | expr e =>
    cases e with
    | «variable» name site => exact use name (List.mem_singleton_self _) rfl rfl
    | assign name site value => exact use name (List.mem_singleton_self _) rfl rfl
    | this line site =>
      exact h.use_respected around h.this_fresh.symm (if_neg fun hc => h.this_ hc.2.symm).symm
    | get object property => exact text_of_kept (h.kept hx rfl rfl (List.mem_singleton_self _))
    | set object property value =>
      exact text_of_kept (h.kept hx rfl rfl (List.mem_singleton_self _))
    | _ => trivial
  | stmt s =>
    cases s with
    | var name initial =>
      have hn : name ∈ (Node.stmt (.var name initial)).names := List.mem_singleton_self _
      refine h.declaration_respected (h.unused _ hx name hn) ((h.orderly _ hx).declared _ _ rfl rfl) ?_
      rw [h.selected_local hx rfl hn]
      refine and_congr_right fun same => ?_
      simp only [localsAt]
      cases p.layers.head? with
      | none => simp
      | some l =>
        obtain ⟨region, declared⟩ := d
        cases same
        simp [eq_comm]
    | function name params body =>
      have hn : name ∈ (Node.stmt (.function name params body)).names := List.mem_singleton_self _
      exact ⟨text_of_kept (h.kept hx rfl rfl hn),
        other name hn rfl rfl ((h.orderly _ hx).declared _ _ rfl rfl)⟩
    | class_ name methods =>
      have hn : name ∈ (Node.stmt (.class_ name methods)).names := List.mem_cons_self
      refine ⟨text_of_kept (h.kept hx rfl rfl hn),
        other name hn rfl rfl ((h.orderly _ hx).declared _ _ rfl rfl), fun m hm => ?_,
        key_of_ne h.this_.symm h.this_fresh.symm⟩
      exact text_of_kept (h.kept hx rfl rfl (List.mem_cons_of_mem _ (List.mem_map_of_mem hm)))
    | _ => trivial
  | code params body =>
    intro n hn
    refine h.text_eq_key (h.unused _ hx n hn) (List.mem_append_left _ hn) ?_
    rw [h.selected_local hx rfl hn]
    refine and_congr_right fun same => ?_
    obtain ⟨region, declared⟩ := d
    cases same
    simp [localsAt, hn]

end Renamable

end Lexical

end Script
