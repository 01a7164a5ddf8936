import Script.Proofs.Lexical.Leaving
import Script.Proofs.Lexical.Paths

/-! The order in which scopes end.
In the order of a course a region stands behind those that lie inside of it. -/
namespace Script.Lexical

variable {β : Type}

theorem Course.regions_append (c d : Course) : (c ++ d).regions = c.regions ++ d.regions := by
  show (c.append d).regions = _
  induction c with
  | done => rfl
  | read n rest ih => exact ih
  | declare n rest ih => exact ih
  | initial n inside rest _ ih => simp only [Course.append, regions, ih, List.append_assoc]
  | scope o inside rest _ ih => simp only [Course.append, regions, ih, List.append_assoc]

/-- Regions at a path or further down, none inside of one before it. -/
structure Ended (path : List Nat) (regions : List Region) : Prop where
  under : ∀ r ∈ regions, path <:+ r.path
  order : regions.Pairwise fun r later => ¬ r.path <:+ later.path

structure EndedIn (path : List Nat) (parts : List Nat) (regions : List Region) : Prop where
  under : ∀ r ∈ regions, ∃ i ∈ parts, i :: path <:+ r.path
  order : regions.Pairwise fun r later => ¬ r.path <:+ later.path

namespace EndedIn

variable {path parts : List Nat} {regions regions' : List Region} {i : Nat}

theorem nil : EndedIn path [] [] := ⟨List.forall_mem_nil _, .nil⟩

theorem cons (h : Ended (i :: path) regions) (other : i ∉ parts)
    (h' : EndedIn path parts regions') : EndedIn path (i :: parts) (regions ++ regions') where
  under := by
    refine List.forall_mem_append.mpr ⟨fun r hr => ?_, fun r hr => ?_⟩
    · exact ⟨i, List.mem_cons_self, h.under r hr⟩
    · obtain ⟨j, hj, under⟩ := h'.under r hr
      exact ⟨j, List.mem_cons_of_mem i hj, under⟩
  order := by
    refine List.pairwise_append.mpr ⟨h.order, h'.order, fun r hr later hl inside => other ?_⟩
    obtain ⟨j, hj, under⟩ := h'.under later hl
    exact eq_of_suffix_cons ((h.under r hr).trans inside) under ▸ hj

theorem one (h : Ended (i :: path) regions) : EndedIn path [i] regions :=
  List.append_nil regions ▸ cons h List.not_mem_nil nil

theorem two {j : Nat} (h : Ended (i :: path) regions) (other : i ≠ j)
    (h' : Ended (j :: path) regions') : EndedIn path [i, j] (regions ++ regions') :=
  cons h (fun mem => other (List.mem_singleton.mp mem)) (one h')

theorem ended (h : EndedIn path parts regions) : Ended path regions where
  under r hr :=
    let ⟨_, _, under⟩ := h.under r hr
    (List.suffix_cons _ _).trans under
  order := h.order

theorem scope {r : Region} (h : EndedIn r.path parts regions) :
    Ended r.path (regions ++ [r]) where
  under := List.forall_mem_append.mpr
    ⟨h.ended.under, List.forall_mem_singleton.mpr List.suffix_rfl⟩
  order := by
    refine List.pairwise_append.mpr ⟨h.order, List.pairwise_singleton _ _, ?_⟩
    intro inner hi _ hr inside
    cases List.mem_singleton.mp hr
    obtain ⟨i, -, under⟩ := h.under inner hi
    exact absurd (under.trans inside).length_le (Nat.not_succ_le_self _)

end EndedIn

theorem Ended.names {r : Region} {body : Course} (h : Ended (0 :: r.path) body.regions) :
    Ended r.path (Course.scope (.names r) body .done).regions := (EndedIn.one h).scope

mutual

theorem exprCourse_ended (path : List Nat) (e : Expr β) :
    Ended path (exprCourse path e).regions := by
  cases e with
  | literal value => exact EndedIn.nil.ended
  | «variable» name site => exact EndedIn.nil.ended
  | this line site => exact EndedIn.nil.ended
  | grouping inner => exact (EndedIn.one (exprCourse_ended (0 :: path) inner)).ended
  | assign name site value => exact (EndedIn.one (exprCourse_ended (0 :: path) value)).ended
  | unary op line operand => exact (EndedIn.one (exprCourse_ended (0 :: path) operand)).ended
  | get object property => exact (EndedIn.one (exprCourse_ended (0 :: path) object)).ended
  | binary left op line right =>
    rw [exprCourse, Course.regions_append]
    exact (EndedIn.two (exprCourse_ended (0 :: path) left) Nat.zero_ne_one
      (exprCourse_ended (1 :: path) right)).ended
  | logical left op line right =>
    rw [exprCourse, Course.regions_append]
    exact (EndedIn.two (exprCourse_ended (0 :: path) left) Nat.zero_ne_one
      (exprCourse_ended (1 :: path) right)).ended
  | sequence earlier last =>
    rw [exprCourse, Course.regions_append]
    exact (EndedIn.two (exprCourse_ended (0 :: path) earlier) Nat.zero_ne_one
      (exprCourse_ended (1 :: path) last)).ended
  | call callee line arguments =>
    rw [exprCourse, Course.regions_append]
    exact (EndedIn.two (exprCourse_ended (0 :: path) callee) Nat.zero_ne_one
      (exprsCourse_ended (1 :: path) arguments)).ended
  | set object property value =>
    rw [exprCourse, Course.regions_append]
    exact (EndedIn.two (exprCourse_ended (1 :: path) value) Nat.one_ne_zero
      (exprCourse_ended (0 :: path) object)).ended
  | ternary condition yes no =>
    rw [exprCourse, Course.regions_append, Course.regions_append]
    exact (EndedIn.cons (exprCourse_ended (0 :: path) condition) (by decide)
      (.two (exprCourse_ended (1 :: path) yes) (by decide) (exprCourse_ended (2 :: path) no))).ended
  | function params body =>
    have code := Ended.names (r := ⟨0 :: path, params, declaredNames body⟩)
      (stmtsCourse_ended (0 :: 0 :: path) body)
    exact (EndedIn.one code).ended

theorem exprsCourse_ended (path : List Nat) (es : List (Expr β)) :
    Ended path (exprsCourse path es).regions := by
  cases es with
  | nil => exact EndedIn.nil.ended
  | cons e es =>
    rw [exprsCourse, Course.regions_append]
    exact (EndedIn.two (exprCourse_ended (0 :: path) e) Nat.zero_ne_one
      (exprsCourse_ended (1 :: path) es)).ended

theorem stmtCourse_ended (path : List Nat) (s : Stmt β) :
    Ended path (stmtCourse path s).regions := by
  cases s with
  | expression e => exact (EndedIn.one (exprCourse_ended (0 :: path) e)).ended
  | print e => exact (EndedIn.one (exprCourse_ended (0 :: path) e)).ended
  | jump jump line => exact EndedIn.nil.ended
  | var name initial =>
    cases initial with
    | none => exact EndedIn.nil.ended
    | some e =>
      rw [stmtCourse, Course.regions, Course.regions, List.append_nil]
      exact (EndedIn.one (exprCourse_ended (0 :: path) e)).ended
  | block body =>
    exact Ended.names (r := ⟨path, [], declaredNames body⟩) (stmtsCourse_ended (0 :: path) body)
  | step body increment =>
    rw [stmtCourse, Course.regions, Course.regions_append]
    exact (EndedIn.two (stmtCourse_ended (0 :: path) body) Nat.zero_ne_one
      (exprCourse_ended (1 :: path) increment)).scope (r := ⟨path, [], []⟩)
  | if_ condition yes no =>
    cases no with
    | none =>
      rw [stmtCourse, Course.regions_append]
      exact (EndedIn.two (exprCourse_ended (0 :: path) condition) Nat.zero_ne_one
        (stmtCourse_ended (1 :: path) yes)).ended
    | some no =>
      rw [stmtCourse, Course.regions_append, Course.regions_append]
      exact (EndedIn.cons (exprCourse_ended (0 :: path) condition) (by decide)
        (.two (stmtCourse_ended (1 :: path) yes) (by decide)
          (stmtCourse_ended (2 :: path) no))).ended
  | while_ condition body =>
    rw [stmtCourse, Course.regions_append]
    exact (EndedIn.two (exprCourse_ended (0 :: path) condition) Nat.zero_ne_one
      (stmtCourse_ended (1 :: path) body)).ended
  | function name params body =>
    have code := Ended.names (r := ⟨0 :: path, params, declaredNames body⟩)
      (stmtsCourse_ended (0 :: 0 :: path) body)
    exact (EndedIn.one code).ended
  | return_ line value =>
    cases value with
    | none => exact EndedIn.nil.ended
    | some e => exact (EndedIn.one (exprCourse_ended (0 :: path) e)).ended
  | class_ name methods =>
    -- the scope of the instance is no region of names
    have inside : (stmtCourse path (.class_ name methods)).regions =
        (methodsCourse (0 :: path) methods).regions := List.append_nil _
    rw [inside]
    exact (EndedIn.one (methodsCourse_ended (0 :: path) methods)).ended

theorem stmtsCourse_ended (path : List Nat) (ss : List (Stmt β)) :
    Ended path (stmtsCourse path ss).regions := by
  cases ss with
  | nil => exact EndedIn.nil.ended
  | cons s ss =>
    rw [stmtsCourse, Course.regions_append]
    exact (EndedIn.two (stmtCourse_ended (0 :: path) s) Nat.zero_ne_one
      (stmtsCourse_ended (1 :: path) ss)).ended

theorem methodsCourse_ended (path : List Nat) (ms : List (Method β)) :
    Ended path (methodsCourse path ms).regions := by
  cases ms with
  | nil => exact EndedIn.nil.ended
  | cons m ms =>
    cases m with
    | mk name params body =>
      have code := Ended.names (r := ⟨0 :: path, params, declaredNames body⟩)
        (stmtsCourse_ended (0 :: 0 :: path) body)
      have parts := (EndedIn.two code Nat.zero_ne_one (methodsCourse_ended (1 :: path) ms)).ended
      rw [Course.regions, Course.regions, List.append_nil, List.append_assoc] at parts
      exact parts

end

/-- The regions of names of a program, in the order in which their scopes end. -/
def programRegions (number : Nat) (program : List (Stmt β)) : List Region :=
  (programCourse number program).regions

/-- Scopes end from the inside out. -/
theorem programRegions_inside_out (number : Nat) (program : List (Stmt β)) :
    (programRegions number program).Pairwise fun r later => ¬ r.path <:+ later.path :=
  (stmtsCourse_ended [number] program).order

end Script.Lexical
