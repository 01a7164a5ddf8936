import Mathlib.Data.List.Sigma
import Script.Proofs.Grammar.Jumps
import Script.Proofs.Grammar.Writing
import Script.Proofs.Lexical.Lines
import Script.Proofs.Lexical.Spelling
import Script.Proofs.Lexical.Surrounded

/-! Jumps outside of loops.
The grammar counts the loops around while it reads and again after a complaint; binding counts those
of the tree, in which the clauses of a loop stand elsewhere. -/
namespace Script

open Lexical Binding Grammar

namespace Lexical

def isOutside (r : Report) : Bool :=
  match r.complaint with
  | .jumpOutsideLoop _ => true
  | _ => false

theorem isSurrounding_of_isOutside {r : Report} (h : isOutside r = true) : isSurrounding r = true := by
  unfold isOutside at h
  unfold isSurrounding
  split at h
  · rename_i hc
    rw [hc]
  · cases h

/-- Only a jump is complained of as outside of loops. -/
theorem strayJump_of_isOutside {r : Report} (h : isOutside r = true) {x : Surroundings × Node Unit}
    (hx : r ∈ surroundingReports x) : strayJump? x = some r := by
  have other (c : Complaint) (hc : isOutside ⟨0, .unnamed, c⟩ = false) : r.complaint ≠ c := by
    rintro rfl
    exact Bool.noConfusion (h.symm.trans hc)
  simp only [surroundingReports, List.mem_append, Option.mem_toList] at hx
  obtain ((jump | top) | initializer) | this := hx
  · exact jump
  · exact absurd (complaint_of_topReturn top) (other _ rfl)
  · exact absurd (complaint_of_initializerReturn initializer) (other _ rfl)
  · exact absurd (complaint_of_strayThis this) (other _ rfl)

/-- Of jumps outside of loops exactly those of the program are complained of. -/
theorem bindProgram_outside (number : Nat) (program : List RawStmt) {r : Report}
    (hr : isOutside r = true) : r ∈ (bindProgram program).reports ↔
      ∃ p jump line, (p, .stmt (.jump jump line)) ∈ programNodes number program ∧
        p.inLoop = false ∧ r = ⟨line, .atToken jump.keyword.spelling, .jumpOutsideLoop jump⟩ := by
  have places := programPlaces_same number program
  have told : r ∈ (bindProgram program).reports ↔
      ∃ x ∈ programPlaces program, r ∈ surroundingReports x := by
    rw [← List.mem_flatMap, ← (bindProgram_surroundings program).mem_iff, List.mem_filter]
    exact ⟨fun h => ⟨h, isSurrounding_of_isOutside hr⟩, And.left⟩
  rw [told]
  constructor
  · rintro ⟨⟨around, node⟩, hx, hm⟩
    have stray := strayJump_of_isOutside hr hm
    obtain ⟨p, hp, inside⟩ := places.exists_node hx
    unfold strayJump? at stray
    split at stray
    · rename_i jump line same
      cases same
      split at stray <;> cases stray
      exact ⟨p, jump, line, hp, (congrArg Inside.loop inside).trans (Bool.not_eq_true _ ▸ ‹_›), rfl⟩
    · cases stray
  · rintro ⟨p, jump, line, hx, free, rfl⟩
    obtain ⟨around, ha, inside⟩ := places.exists_place hx
    have outside : around.inLoop = false := (congrArg Inside.loop inside).symm.trans free
    refine ⟨_, ha, ?_⟩
    rw [surroundingReports, strayJump?, outside]
    exact List.mem_append_left _ (List.mem_append_left _ (List.mem_append_left _
      (List.mem_singleton_self _)))

/-! A jump is told apart from the others by the number of its keyword. -/

/-- The line of a token by its number; behind the last token it is the line of the end. -/
def lineOrEnd (tokens : List Token) (endLine i : Nat) : Nat :=
  (tokens[i]?.map Token.line).getD endLine

theorem numbered_lines (tokens : List Token) (endLine : Nat) :
    (numbered tokens).map (Token.relined (lineOrEnd tokens endLine)) = tokens := by
  refine relined_numbers _ (fun i => ?_) fun i t found => ?_
  · rw [numbered, List.getElem?_map, List.getElem?_zipIdx, Option.map_map, Nat.zero_add]
    rfl
  · rw [lineOrEnd, found]
    rfl

theorem readProgram_numbered (tokens : List Token) (endLine : Nat) :
    readProgram tokens endLine =
      (readProgram (numbered tokens) tokens.length).relined (lineOrEnd tokens endLine) := by
  have last : lineOrEnd tokens endLine tokens.length = endLine := by
    rw [lineOrEnd, List.getElem?_length]
    rfl
  rw [← readProgram_lines, numbered_lines, last]

theorem bindProgram_numbered (tokens : List Token) (endLine : Nat) :
    bindProgram (readProgram tokens endLine).statements =
      (bindProgram (readProgram (numbered tokens) tokens.length).statements).relined
        (lineOrEnd tokens endLine) := by
  rw [readProgram_numbered, Grammar.Result.relined, bindProgram_lines]

theorem jumpsOf_lines (tokens : List Token) :
    ((jumpsOf tokens).map Prod.snd).Sublist (tokens.map Token.line) := by
  induction tokens with
  | nil => exact .slnil
  | cons t rest ih =>
    rw [jumpsOf, List.filterMap_cons]
    split
    · exact ih.cons t.line
    · rename_i jump hj
      have line : jump.2 = t.line := by
        unfold jumpOf? at hj
        split at hj <;> cases hj <;> rfl
      rw [List.map_cons, List.map_cons, line]
      exact ih.cons_cons t.line

theorem jumpsOf_numbered_nodup (tokens : List Token) :
    ((jumpsOf (numbered tokens)).map Prod.snd).Nodup := by
  refine (jumpsOf_lines _).nodup ?_
  rw [numbered, List.map_map]
  exact List.nodup_zipIdx_map_snd tokens

theorem keyword_of_jumpsOf {tokens : List Token} {jump : Jump} {i : Nat}
    (h : (jump, i) ∈ jumpsOf (numbered tokens)) :
    ∃ t, tokens[i]? = some t ∧ t.kind = .keyword jump.keyword := by
  obtain ⟨u, hu, hj⟩ := List.mem_filterMap.mp h
  obtain ⟨t, ht, kind, _⟩ := mem_numbered hu
  unfold jumpOf? at hj
  split at hj
  · rename_i hk
    cases hj
    exact ⟨t, ht, kind.trans hk⟩
  · rename_i hk
    cases hj
    exact ⟨t, ht, kind.trans hk⟩
  · cases hj

/-- Where the lines tell the jumps apart, those complained of are the ones passed as strays. -/
theorem stray_iff {es : List Passed} {reports : List Report}
    (unique : (es.map Passed.line).Nodup) (strays : reports.filter isStray = strayReports es)
    {e : Passed} (he : e ∈ es) : e.report ∈ reports ↔ e.stray = true := by
  have shown : e.report ∈ reports ↔ e.report ∈ strayReports es := by
    rw [← strays, List.mem_filter]
    exact ⟨fun h => ⟨h, rfl⟩, And.left⟩
  rw [shown, strayReports, List.mem_map]
  constructor
  · rintro ⟨e', h', same⟩
    obtain ⟨among, stray⟩ := List.mem_filter.mp h'
    cases List.inj_on_of_nodup_map unique among he (congrArg Report.line same)
    exact stray
  · exact fun stray => ⟨e, List.mem_filter.mpr ⟨he, stray⟩, rfl⟩

/-- Reading and binding agree on the jumps outside of loops.
Tokens are read with their numbers in place of their lines, so that a complaint names its token; on
the lines of the tokens the same is read and bound. A jump of the tree is complained of by binding
exactly if it is by reading, at its keyword, and that is exactly if its place is in no loop: going
up the tree the function around it, or the top of the program, comes before any `while`. Reading a
declaration restores the number of loops around however it ends, and binding a statement restores all
that is around. So of a program that is read without a complaint no jump is complained of. -/
theorem jumps_agree (tokens : List Token) (endLine : Nat) :
    let read := readProgram (numbered tokens) tokens.length
    let bound := bindProgram read.statements
    (readProgram tokens endLine = read.relined (lineOrEnd tokens endLine) ∧
      bindProgram (readProgram tokens endLine).statements =
        bound.relined (lineOrEnd tokens endLine)) ∧
    (∀ p jump i, (p, .stmt (.jump jump i)) ∈ programNodes 0 read.statements →
      (∃ t, tokens[i]? = some t ∧ t.kind = .keyword jump.keyword) ∧
      (⟨i, .atToken jump.keyword.spelling, .jumpOutsideLoop jump⟩ ∈ bound.reports ↔
        ⟨i, .atToken jump.keyword.spelling, .strayJump jump⟩ ∈ read.reports) ∧
      (⟨i, .atToken jump.keyword.spelling, .strayJump jump⟩ ∈ read.reports ↔
        p.inLoop = false)) ∧
    (∀ fuel r, (endState (declaration fuel r)).loops = r.loops) ∧
    (∀ s c, Kept c ((bindStmt s).run c).run.2) ∧
    ((readProgram tokens endLine).reports = [] →
      ∀ r ∈ (bindProgram (readProgram tokens endLine).statements).reports,
        isOutside r = false) := by
  intro read bound
  obtain ⟨es, taken, strays, marked⟩ := readProgram_jumps (numbered tokens) tokens.length
  have unique : (es.map Passed.line).Nodup := by
    have lines := (taken.map Prod.snd).nodup (jumpsOf_numbered_nodup tokens)
    rwa [List.map_map] at lines
  have place : ∀ p jump i, (p, .stmt (.jump jump i)) ∈ programNodes 0 read.statements →
      (⟨jump, i, !p.inLoop⟩ : Passed) ∈ es := fun p jump i hx => marked 0 _ hx jump i rfl
  have byReading : ∀ p jump i, (p, .stmt (.jump jump i)) ∈ programNodes 0 read.statements →
      (⟨i, .atToken jump.keyword.spelling, .strayJump jump⟩ ∈ read.reports ↔
        p.inLoop = false) := fun p jump i hx =>
    (stray_iff unique strays (place p jump i hx)).trans (by simp)
  have byBinding : ∀ p jump i, (p, .stmt (.jump jump i)) ∈ programNodes 0 read.statements →
      (⟨i, .atToken jump.keyword.spelling, .jumpOutsideLoop jump⟩ ∈ bound.reports ↔
        p.inLoop = false) := by
    intro p jump i hx
    refine (bindProgram_outside 0 read.statements rfl).trans ⟨?_, fun hp => ⟨p, jump, i, hx, hp, rfl⟩⟩
    rintro ⟨p', jump', i', hx', free, same⟩
    obtain rfl : i = i' := congrArg Report.line same
    have passed := List.inj_on_of_nodup_map unique (place p jump i hx) (place p' jump' i hx') rfl
    rw [Passed.mk.injEq, free] at passed
    simpa using passed.2.2
  refine ⟨⟨readProgram_numbered tokens endLine, bindProgram_numbered tokens endLine⟩,
    fun p jump i hx => ⟨?_, ?_, byReading p jump i hx⟩, declaration_loops, bindStmt_kept, ?_⟩
  · exact keyword_of_jumpsOf (taken.subset (List.mem_map_of_mem (place p jump i hx)))
  · exact (byBinding p jump i hx).trans (byReading p jump i hx).symm
  · intro clean r hr
    rw [readProgram_numbered, Grammar.Result.relined] at clean
    have silent : read.reports = [] := List.map_eq_nil_iff.mp clean
    rw [bindProgram_numbered] at hr
    obtain ⟨r', hr', rfl⟩ := List.mem_map.mp hr
    refine Bool.eq_false_iff.mpr fun outside => ?_
    have outside' : isOutside r' = true := outside
    obtain ⟨p, jump, i, hx, free, rfl⟩ := (bindProgram_outside 0 read.statements outside').mp hr'
    have complained := (byReading p jump i hx).mpr free
    rw [silent] at complained
    exact List.not_mem_nil complained

/-- A node is the jump of a number, in a loop or not. -/
def isJump (i : Nat) (inLoop : Bool) (x : Position × Node Unit) : Bool :=
  match x.2 with
  | .stmt (.jump .break_ line) => line == i && x.1.inLoop == inLoop
  | _ => false

theorem exists_of_isJump (nodes : List (Position × Node Unit)) (i : Nat) (inLoop : Bool)
    (h : nodes.any (isJump i inLoop) = true) :
    ∃ p, (p, .stmt (.jump .break_ i)) ∈ nodes ∧ p.inLoop = inLoop := by
  obtain ⟨⟨p, node⟩, hx, hj⟩ := List.any_eq_true.mp h
  unfold isJump at hj
  split at hj
  · rename_i hn
    obtain ⟨line, loop⟩ := Bool.and_eq_true_iff.mp hj
    cases hn
    cases beq_iff_eq.mp line
    exact ⟨p, hx, beq_iff_eq.mp loop⟩
  · cases hj

/-- The tokens of `break; while (true) break; var;`, each on a line of its own. -/
def straying : List Token :=
  [keywordAt .break_ 1, symbolAt .semicolon 2, keywordAt .while_ 3, symbolAt .leftParen 4,
    keywordAt .true_ 5, symbolAt .rightParen 6, keywordAt .break_ 7, symbolAt .semicolon 8,
    keywordAt .var_ 9, symbolAt .semicolon 10]

/-- The first jump is complained of twice, the one in the loop never, and the last statement is not
read. -/
theorem jumps_agree_straying :
    let read := readProgram (numbered straying) straying.length
    let reading := fun i => ⟨i, .atToken "break", .strayJump .break_⟩ ∈ read.reports
    let binding := fun i =>
      ⟨i, .atToken "break", .jumpOutsideLoop .break_⟩ ∈ (bindProgram read.statements).reports
    (reading 0 ∧ binding 0) ∧ (¬ reading 6 ∧ ¬ binding 6) ∧ read.reports.length = 2 := by
  intro read reading binding
  obtain ⟨p, hp, free⟩ := exists_of_isJump (programNodes 0 read.statements) 0 false
    (by decide +kernel)
  obtain ⟨q, hq, held⟩ := exists_of_isJump (programNodes 0 read.statements) 6 true
    (by decide +kernel)
  have agree := (jumps_agree straying 11).2.1
  obtain ⟨_, byBinding, byReading⟩ := agree p .break_ 0 hp
  obtain ⟨_, byBinding', byReading'⟩ := agree q .break_ 6 hq
  have quiet : ¬ reading 6 := fun h => Bool.noConfusion (held.symm.trans (byReading'.mp h))
  exact ⟨⟨byReading.mpr free, byBinding.mpr (byReading.mpr free)⟩,
    ⟨quiet, fun h => quiet (byBinding'.mp h)⟩, by decide +kernel⟩

end Lexical

end Script
