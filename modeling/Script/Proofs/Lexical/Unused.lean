import Script.Proofs.Lexical.Declaration
import Script.Proofs.Lexical.Nesting

/-! The unused names of a program.
A read that refers to a name of a region lies in it, and no two regions of a program have one path.
-/
namespace Script

open Lexical Binding

namespace Lexical

variable {β : Type}

def Read.uses (r : Read) (d : Declaration) : Bool :=
  r.name.text == d.name.text && !r.inOwn &&
    (r.layers.find? fun l => l.holds r.name.text).any fun l => l.region == d.region

/-! A region is known by its depth among the regions around a read. -/

theorem depth?_of_find? {layers : List Layer} {key : String} {l : Layer}
    (h : layers.find? (fun l => l.holds key) = some l) :
    ∃ depth, depth? layers key = some depth := by
  induction layers with
  | nil => cases h
  | cons k outer ih =>
    simp only [depth?]
    split
    · exact ⟨_, rfl⟩
    · rename_i other
      rw [List.find?_cons_of_neg (p := fun l : Layer => l.holds key) other] at h
      exact ih h

theorem uses_eq_usesAt {r : Region} {outer new : List Region} {rd : Read} {n : Name}
    (regions : rd.layers.map Layer.region = new ++ r :: outer)
    (nodup : (rd.layers.map Layer.region).Nodup) :
    rd.uses ⟨r, n⟩ = rd.usesAt outer.length n.text := by
  have here : (rd.layers.map Layer.region).reverse[outer.length]? = some r := by
    rw [regions, List.reverse_append, List.reverse_cons, List.append_assoc,
      List.getElem?_append_right (Nat.le_of_eq List.length_reverse), List.length_reverse,
      Nat.sub_self]
    rfl
  have region (depth : Nat) (l : Layer) (hl : rd.layers.reverse[depth]? = some l) :
      (rd.layers.map Layer.region).reverse[depth]? = some l.region := by
    rw [← List.map_reverse, List.getElem?_map, hl]
    rfl
  have same : ((rd.layers.find? fun l => l.holds rd.name.text).any fun l => l.region == r) =
      (depth? rd.layers rd.name.text == some outer.length) := by
    rw [Bool.eq_iff_iff, Option.any_eq_true, beq_iff_eq]
    constructor
    · rintro ⟨l, found, hr⟩
      obtain ⟨depth, hd⟩ := depth?_of_find? found
      obtain ⟨k, found', at_⟩ := find?_of_depth? hd
      rw [found] at found'
      cases found'
      have there := region depth l at_
      rw [beq_iff_eq.mp hr, ← here] at there
      have lt := depth?_lt hd
      rw [hd, (List.getElem?_inj (by rwa [List.length_reverse, List.length_map])
        ((List.reverse_perm _).nodup_iff.mpr nodup)).mp there]
    · intro hd
      obtain ⟨l, found, at_⟩ := find?_of_depth? hd
      have there := region _ l at_
      rw [here] at there
      exact ⟨l, found, beq_iff_eq.mpr (Option.some.inj there).symm⟩
  rw [Read.uses, Read.usesAt, Read.finds, same, Bool.and_assoc, Bool.and_assoc,
    Bool.and_comm (!rd.inOwn)]

theorem extent_opens {c : Course} {layers : List Layer} {e : Extent} (h : e ∈ c.extents layers) :
    e.region ∈ c.opens := by
  induction c generalizing layers with
  | done => cases h
  | read n rest ih => exact ih h
  | declare n rest ih => exact ih h
  | initial n inside rest ihInside ih =>
    exact List.mem_append.mpr ((List.mem_append.mp h).imp ihInside ih)
  | scope o inside rest ihInside ih =>
    rcases List.mem_append.mp h with h | h
    · exact List.mem_cons_of_mem _ (List.mem_append_left _ (ihInside h))
    · rcases List.mem_append.mp h with h | h
      · obtain ⟨r, hr, rfl⟩ := List.mem_map.mp h
        cases o with
        | names r' =>
          cases List.mem_singleton.mp hr
          exact List.mem_cons_self
        | receiver path className => cases hr
      · exact List.mem_cons_of_mem _ (List.mem_append_right _ (ih h))

/-- The reads of a course use nothing of a region it neither starts in nor opens. -/
theorem any_uses_eq_false {c : Course} {layers : List Layer} {r : Region} (n : Name)
    (outside : r ∉ layers.map Layer.region) (unopened : r ∉ c.opens) :
    (c.reads layers).any (Read.uses · ⟨r, n⟩) = false := by
  rw [List.any_eq_false]
  intro rd hrd uses
  obtain ⟨new, regions, opened⟩ := regions_of_mem_reads hrd
  rw [Read.uses, Bool.and_eq_true, Option.any_eq_true] at uses
  obtain ⟨-, l, found, hr⟩ := uses
  have region : l.region = r := beq_iff_eq.mp hr
  have mem : r ∈ rd.layers.map Layer.region :=
    region ▸ List.mem_map_of_mem (List.mem_of_find?_eq_some found)
  rw [regions] at mem
  rcases List.mem_append.mp mem with mem | mem
  · exact unopened (opened.subset (List.mem_reverse.mpr mem))
  · exact outside mem

theorem nodup_of_mem_reads {c : Course} {layers : List Layer} {rd : Read}
    (nodup : (layers.map Layer.region ++ c.opens).Nodup) (h : rd ∈ c.reads layers) :
    (rd.layers.map Layer.region).Nodup := by
  obtain ⟨new, regions, opened⟩ := regions_of_mem_reads h
  rw [regions]
  have part := nodup.sublist (opened.append_left (layers.map Layer.region))
  exact ((List.perm_append_comm.trans
    ((List.reverse_perm new).symm.append_left _)).nodup_iff).mpr part

/-- The region of a scope with those around it and those opened in it, and the others. -/
theorem nodup_scope {r : Region} {outer within behind : List Region}
    (h : (outer ++ r :: (within ++ behind)).Nodup) :
    (r :: outer ++ within).Nodup ∧ (outer ++ behind).Nodup ∧
      (∀ k ∈ within, k ∉ outer ∧ k ∉ behind) ∧ (∀ k ∈ behind, k ∉ r :: outer ∧ k ∉ within) ∧
      r ∉ outer ∧ r ∉ behind := by
  have all : (r :: (outer ++ (within ++ behind))).Nodup := List.perm_middle.nodup_iff.mp h
  obtain ⟨here, others⟩ := List.nodup_cons.mp all
  simp only [List.mem_append, not_or] at here
  obtain ⟨outer_apart, inner, apart⟩ := List.nodup_append.mp others
  obtain ⟨within_apart, behind_apart, apart'⟩ := List.nodup_append.mp inner
  refine ⟨?_, ?_, fun k hk => ⟨fun ho => ?_, fun hb => ?_⟩, fun k hk => ⟨fun ho => ?_, fun hw => ?_⟩,
    here.1, here.2.2⟩
  · exact List.nodup_cons.mpr ⟨fun mem => (List.mem_append.mp mem).elim here.1 here.2.1,
      others.sublist ((List.sublist_append_left _ _).append_left _)⟩
  · exact others.sublist ((List.sublist_append_right _ _).append_left _)
  · exact apart k ho k (List.mem_append_left _ hk) rfl
  · exact apart' k hk k hb rfl
  · rcases List.mem_cons.mp ho with rfl | ho
    · exact here.2.2 hk
    · exact apart k ho k (List.mem_append_right _ hk) rfl
  · exact apart' k hw k hk rfl

/-- Whether a name of a region is used is seen from the reads in the region. -/
theorem any_uses_extent {c : Course} {layers : List Layer} {e : Extent} (n : Name)
    (nodup : (layers.map Layer.region ++ c.opens).Nodup) (h : e ∈ c.extents layers) :
    (c.reads layers).any (Read.uses · ⟨e.region, n⟩) =
      e.reads.any (Read.usesAt · e.depth n.text) := by
  induction c generalizing layers with
  | done => cases h
  | read m rest ih =>
    obtain ⟨-, -, apart⟩ := List.nodup_append.mp nodup
    have outside : e.region ∉ layers.map Layer.region := fun mem =>
      apart _ mem _ (extent_opens h) rfl
    have first := any_uses_eq_false (c := .read m .done) n outside List.not_mem_nil
    rw [Course.reads_read, List.any_cons, Bool.or_eq_false_iff] at first
    rw [Course.reads_read, List.any_cons, first.1, Bool.false_or, ih nodup h]
  | declare m rest ih => exact ih (regions_declareIn m layers ▸ nodup) h
  | initial m inside rest ihInside ih =>
    obtain ⟨-, opened, apart⟩ := List.nodup_append.mp nodup
    obtain ⟨-, -, apart'⟩ := List.nodup_append.mp opened
    rw [Course.reads_initial, List.any_append]
    rcases List.mem_append.mp h with h | h
    · have outside : e.region ∉ (declareIn m layers).map Layer.region := fun mem =>
        apart _ (regions_declareIn m layers ▸ mem) _ (List.mem_append_left _ (extent_opens h)) rfl
      have unopened : e.region ∉ rest.opens := fun mem => apart' _ (extent_opens h) _ mem rfl
      have within : ((pendIn m layers).map Layer.region ++ inside.opens).Nodup := by
        rw [regions_pendIn]
        exact nodup.sublist ((List.sublist_append_left _ _).append_left _)
      rw [any_uses_eq_false n outside unopened, Bool.or_false, ihInside within h]
    · have outside : e.region ∉ (pendIn m layers).map Layer.region := fun mem =>
        apart _ (regions_pendIn m layers ▸ mem) _ (List.mem_append_right _ (extent_opens h)) rfl
      have unopened : e.region ∉ inside.opens := fun mem => apart' _ mem _ (extent_opens h) rfl
      have behind : ((declareIn m layers).map Layer.region ++ rest.opens).Nodup := by
        rw [regions_declareIn]
        exact nodup.sublist ((List.sublist_append_right _ _).append_left _)
      rw [any_uses_eq_false n outside unopened, Bool.false_or, ih behind h]
  | scope o inside rest ihInside ih =>
    obtain ⟨within, behind, apartIn, apartBehind, outer, unopened⟩ := nodup_scope nodup
    rw [Course.reads_scope, List.any_append]
    rcases List.mem_append.mp h with h | h
    · obtain ⟨outside, later⟩ := apartIn _ (extent_opens h)
      have within : ((Layer.opened o.region :: layers).map Layer.region ++ inside.opens).Nodup :=
        within
      rw [any_uses_eq_false n outside later, Bool.or_false, ihInside within h]
    rcases List.mem_append.mp h with h | h
    · obtain ⟨r, hr, rfl⟩ := List.mem_map.mp h
      cases o with
      | receiver path className => cases hr
      | names r' =>
        cases List.mem_singleton.mp hr
        -- the region itself: no read behind it can refer to its names
        show ((inside.reads (.opened r :: layers)).any (Read.uses · ⟨r, n⟩) ||
            (rest.reads layers).any (Read.uses · ⟨r, n⟩)) =
          (inside.reads (.opened r :: layers)).any (Read.usesAt · layers.length n.text)
        rw [any_uses_eq_false (c := rest) (r := r) n outer unopened, Bool.or_false,
          Bool.eq_iff_iff, List.any_eq_true, List.any_eq_true]
        refine exists_congr fun rd => and_congr_right fun hrd => ?_
        obtain ⟨new, regions, -⟩ := regions_of_mem_reads hrd
        have regions : rd.layers.map Layer.region = new ++ r :: layers.map Layer.region := regions
        have apart : ((Layer.opened r :: layers).map Layer.region ++ inside.opens).Nodup := within
        rw [uses_eq_usesAt regions (nodup_of_mem_reads apart hrd), List.length_map]
    · obtain ⟨outside, earlier⟩ := apartBehind _ (extent_opens h)
      rw [any_uses_eq_false n outside earlier, Bool.false_or, ih behind h]

def opened? : Position × Node β → Option Region
  | (p, .stmt (.block body)) => some ⟨p.path, [], declaredNames body⟩
  | (p, .stmt (.step _ _)) => some ⟨p.path, [], []⟩
  | (p, .code params body) => some ⟨p.path, params, declaredNames body⟩
  | _ => none

def Mention.opening? : Mention → Option Opening
  | .opens o => some o
  | _ => none

theorem mention_opened (x : Position × Node β) :
    ((mention? x).bind fun m => m.opening?.bind Opening.names?) = opened? x := by
  obtain ⟨p, node⟩ := x
  cases node with
  | expr e => cases e <;> rfl
  | stmt s =>
    cases s with
    | var name initial => cases initial <;> rfl
    | _ => rfl
  | code params body => rfl

theorem path_of_mention {x : Position × Node β} {o : Opening}
    (h : (mention? x).bind Mention.opening? = some o) : o.region.path = x.1.path := by
  obtain ⟨m, hm, ho⟩ := Option.bind_eq_some_iff.mp h
  unfold mention? at hm
  split at hm <;> cases hm <;> cases ho <;> rfl

namespace Course

def openings (c : Course) (layers : List Layer) : List Opening :=
  (c.mentions layers).filterMap Mention.opening?

variable (c : Course) (layers : List Layer)

theorem openings_opens : ((c.openings layers).map Opening.region).Perm c.opens := by
  induction c generalizing layers with
  | done => exact .nil
  | read n rest ih => exact ih _
  | declare n rest ih => exact ih _
  | initial n inside rest ihInside ih =>
    show (List.map _ (List.filterMap _ (_ ++ _))).Perm _
    rw [List.filterMap_append, List.map_append]
    exact (ihInside _).append (ih _)
  | scope o inside rest ihInside ih =>
    show (o.region :: List.map _ (List.filterMap _ (_ ++ _))).Perm _
    rw [List.filterMap_append, List.map_append]
    exact ((ihInside _).append (ih _)).cons _

theorem openings_regions : ((c.openings layers).filterMap Opening.names?).Perm c.regions := by
  induction c generalizing layers with
  | done => exact .nil
  | read n rest ih => exact ih _
  | declare n rest ih => exact ih _
  | initial n inside rest ihInside ih =>
    show (List.filterMap _ (List.filterMap _ (_ ++ _))).Perm _
    rw [List.filterMap_append, List.filterMap_append]
    exact (ihInside _).append (ih _)
  | scope o inside rest ihInside ih =>
    have parts := (ihInside (.opened o.region :: layers)).append (ih layers)
    show (List.filterMap _ (o :: List.filterMap _ (_ ++ _))).Perm _
    rw [List.filterMap_append]
    cases o with
    | names r =>
      rw [List.filterMap_cons_some (f := Opening.names?) rfl, List.filterMap_append]
      exact (parts.cons r).trans List.perm_middle.symm
    | receiver path className =>
      rw [List.filterMap_cons_none (f := Opening.names?) rfl, List.filterMap_append]
      exact parts

theorem usual_names {c : Course} (usual : c.Usual) (formed : c.Formed) :
    (∀ n ∈ c.declares, n.text ≠ thisName.text) ∧
      ∀ r ∈ c.regions, ∀ n ∈ r.names, n.text ≠ thisName.text := by
  induction c with
  | done => exact ⟨List.forall_mem_nil _, List.forall_mem_nil _⟩
  | read n rest ih => exact ih usual formed
  | declare n rest ih =>
    obtain ⟨declared, regions⟩ := ih usual.2 formed
    exact ⟨List.forall_mem_cons.mpr ⟨usual.1, declared⟩, regions⟩
  | initial n inside rest ihInside ih =>
    obtain ⟨hn, usualInside, usualRest⟩ := usual
    obtain ⟨-, formedInside, formedRest⟩ := formed
    obtain ⟨declared, regions⟩ := ih usualRest formedRest
    exact ⟨List.forall_mem_cons.mpr ⟨hn, declared⟩, List.forall_mem_append.mpr
      ⟨(ihInside usualInside formedInside).2, regions⟩⟩
  | scope o inside rest ihInside ih =>
    obtain ⟨ho, usualInside, usualRest⟩ := usual
    obtain ⟨declares, formedInside, formedRest⟩ := formed
    obtain ⟨declaredInside, regionsInside⟩ := ihInside usualInside formedInside
    obtain ⟨declared, regions⟩ := ih usualRest formedRest
    refine ⟨declared, List.forall_mem_append.mpr ⟨regionsInside,
      List.forall_mem_append.mpr ⟨fun r hr => ?_, regions⟩⟩⟩
    cases o with
    | names r' =>
      cases List.mem_singleton.mp hr
      exact List.forall_mem_append.mpr ⟨ho, declares ▸ declaredInside⟩
    | receiver path className => cases hr

end Course

theorem paths_sublist (nodes : List (Position × Node β)) :
    (((nodes.filterMap mention?).filterMap Mention.opening?).map fun o => o.region.path).Sublist
      (nodes.map fun x => x.1.path) := by
  rw [List.filterMap_filterMap]
  induction nodes with
  | nil => exact List.nil_sublist _
  | cons x nodes ih =>
    rw [List.filterMap_cons]
    split
    · exact ih.cons _
    · rename_i o ho
      rw [List.map_cons, List.map_cons, path_of_mention ho]
      exact ih.cons_cons _

/-- The regions that a program opens differ, by their paths. -/
theorem programCourse_opens (number : Nat) (program : List (Stmt β))
    (usual : ∀ x ∈ programNodes number program, Node.Usual x) :
    (programCourse number program).opens.Nodup := by
  have mentioned := programNodes_mentioned number program usual
  have paths := (programNodes_placed number program).apart.sublist (paths_sublist _)
  have opened := (mentioned.perm.filterMap Mention.opening?).map Opening.region
  have distinct := (List.pairwise_map.mp paths).imp fun apart same =>
    apart (congrArg Region.path same)
  exact (opened.trans (Course.openings_opens _ _)).nodup (List.pairwise_map.mpr distinct)

theorem isProgress_of_isUnused (r : Report) (h : isUnused r = true) : isProgress r = true :=
  decide_eq_true (.inr (of_decide_eq_true h))

/-- Where no region of a program that was read has a name twice, the complaints about unused names
are, scope by scope from the inside out and in the order of the declarations, one for each name to
which no variable refers from outside of its own initializer. The scopes are those of the blocks, of
the loops with a step and of the code of functions, so nothing is said of globals or the instance. -/
theorem unused_reported (source : String)
    (once : ∀ r ∈ programRegions 0 (Program.ofSource source).statements,
      (r.names.map Name.text).Nodup) :
    let regions := programRegions 0 (Program.ofSource source).statements
    ((Program.ofSource source).bound.reports.filter isUnused = regions.flatMap fun r =>
      (r.names.filter fun n =>
        !((sourceNodes source).filterMap reading?).any (Read.uses · ⟨r, n⟩)).map unusedAt) ∧
      regions.Perm ((sourceNodes source).filterMap opened?) ∧
      (regions.Pairwise fun r later => ¬ r.path <:+ later.path) ∧
      ∀ r ∈ regions, ∀ n ∈ r.names, n.text ≠ thisName.text := by
  have usual := sourceNodes_usual source
  have mentioned := programNodes_mentioned 0 _ usual
  refine ⟨?_, ?_, programRegions_inside_out 0 _,
    (Course.usual_names mentioned.usual mentioned.formed).2⟩
  · have reads : ((programCourse 0 (Program.ofSource source).statements).reads []).Perm
        ((sourceNodes source).filterMap reading?) := by
      rw [← filterMap_mentions mention_reading]
      exact (mentioned.perm.filterMap _).symm
    have apart : (([] : List Layer).map Layer.region ++
        (programCourse 0 (Program.ofSource source).statements).opens).Nodup :=
      programCourse_opens 0 _ usual
    rw [← filter_progress isProgress_of_isUnused, Program.bound,
      bindProgram_runs 0 _ mentioned.usual, complaints_unused .nil mentioned.formed once,
      programRegions, ← Course.extents_regions _ [], List.flatMap_map]
    rw [List.flatMap_def, List.flatMap_def]
    refine congrArg List.flatten (List.map_congr_left fun e he => ?_)
    refine congrArg (List.map _) (List.filter_congr fun n _ => ?_)
    rw [← reads.any_eq, any_uses_extent n apart he]
  · have opened := (mentioned.perm.filterMap Mention.opening?).filterMap Opening.names?
    rw [sourceNodes, ← filterMap_mentions mention_opened, ← List.filterMap_filterMap]
    exact (opened.trans (Course.openings_regions _ _)).symm

/-- In `{ var a = nil; var b = fun (c) { return b; }; var d = a; }` the parameter is complained of
where the function ends, and then the two variables that are read nowhere else. -/
theorem unused_reported_inside_out :
    let source := "{ var a = nil; var b = fun (c) { return b; }; var d = a; }"
    (∀ r ∈ programRegions 0 (Program.ofSource source).statements,
      (r.names.map Name.text).Nodup) ∧
      (Program.ofSource source).bound.reports.filter isUnused =
        [unusedAt ⟨"c", 1⟩, unusedAt ⟨"b", 1⟩, unusedAt ⟨"d", 1⟩] := by
  intro source
  have once : ∀ r ∈ programRegions 0 (Program.ofSource source).statements,
      (r.names.map Name.text).Nodup := by decide +kernel
  have told : ((programRegions 0 (Program.ofSource source).statements).flatMap fun r =>
      (r.names.filter fun n =>
        !((sourceNodes source).filterMap reading?).any (Read.uses · ⟨r, n⟩)).map unusedAt) =
      [unusedAt ⟨"c", 1⟩, unusedAt ⟨"b", 1⟩, unusedAt ⟨"d", 1⟩] := by decide +kernel
  exact ⟨once, (unused_reported source once).1.trans told⟩

end Lexical

end Script
