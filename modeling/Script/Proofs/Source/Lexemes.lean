import Script.Proofs.Source.Placed
import Script.Proofs.Source.Tokens

/-! The forms of tokens.
A lexeme tells by itself what token it is. Cut from a source it has the form of its kind, and where
a blank or the end follows it is cut again as the same token. -/
namespace Script.Source

/-- The text has the form of the tokens of a kind. -/
inductive Spells : Kind → List Char → Prop where
  | whole {digits : List Char} : digits ≠ [] → (∀ d ∈ digits, d.isDigit = true) →
      Spells (.number (Number.ofDigits digits [])) digits
  | fraction {digits fraction : List Char} : digits ≠ [] → (∀ d ∈ digits, d.isDigit = true) →
      fraction ≠ [] → (∀ d ∈ fraction, d.isDigit = true) →
      Spells (.number (Number.ofDigits digits fraction)) (digits ++ '.' :: fraction)
  | string {text : List Char} : '"' ∉ text →
      Spells (.string (String.ofList text)) ('"' :: text ++ ['"'])
  | keyword (k : Keyword) : Spells (.keyword k) k.spelling.toList
  | name {c : Char} {rest : List Char} : isWordStart c = true →
      (∀ d ∈ rest, isWordChar d = true) → (∀ k : Keyword, k.spelling ≠ String.ofList (c :: rest)) →
      Spells .name (c :: rest)
  | symbol (s : Symbol) : Spells (.symbol s) s.spelling.toList

variable {c : Char} {s text : List Char} {kind : Kind}

structure Single (c : Char) : Prop where
  blank : isBlank c = false
  digit : c.isDigit = false
  word : isWordStart c = false
  quote : c ≠ '"'

/-- A token is cut as its first character says, and what looks like a division opens no comment. -/
theorem cut_token (h : (cut c s).1.form = .token kind) :
    c.isDigit = true ∧ cut c s = cutNumber c s ∨
    isWordStart c = true ∧ cut c s = cutWord c s ∨
    c = '"' ∧ cut c s = cutString s ∨
    Single c ∧ (c = '/' → ∀ d ∈ s.head?, d ≠ '/' ∧ d ≠ '*') ∧ cut c s = cutSymbol c s := by
  unfold cut at h ⊢
  split at h
  · cases h
  rename_i blank
  split at h
  · rename_i digit
    exact .inl ⟨digit, by rw [if_neg blank, if_pos digit]⟩
  rename_i digit
  split at h
  · rename_i word
    exact .inr (.inl ⟨word, by rw [if_neg blank, if_neg digit, if_pos word]⟩)
  rename_i word
  split at h
  · rename_i quote
    refine .inr (.inr (.inl ⟨beq_iff_eq.mp quote, ?_⟩))
    rw [if_neg blank, if_neg digit, if_neg word, if_pos quote]
  rename_i quote
  have single : Single c := ⟨Bool.eq_false_iff.mpr blank, Bool.eq_false_iff.mpr digit,
    Bool.eq_false_iff.mpr word, fun hc => quote (beq_iff_eq.mpr hc)⟩
  split at h
  · cases h
  · unfold cutComment at h
    split at h <;> cases h
  · rename_i line block
    have slash : c = '/' → ∀ d ∈ s.head?, d ≠ '/' ∧ d ≠ '*' := by
      intro hc d hd
      obtain ⟨rest, rfl⟩ := List.head?_eq_some_iff.mp hd
      refine ⟨fun hd => line rest hc ?_, fun hd => block rest hc ?_⟩ <;> rw [hd]
    refine .inr (.inr (.inr ⟨single, slash, ?_⟩))
    rw [if_neg blank, if_neg digit, if_neg word, if_neg quote]

theorem word_kind (word : String) :
    (∃ k : Keyword, Kind.ofWord word = .keyword k ∧ k.spelling = word) ∨
      (Kind.ofWord word = .name ∧ ∀ k : Keyword, k.spelling ≠ word) := by
  unfold Kind.ofWord Keyword.ofSpelling?
  cases h : Keyword.all.find? fun k => k.spelling == word with
  | some k => exact .inl ⟨k, rfl, by simpa using List.find?_some h⟩
  | none =>
    refine .inr ⟨rfl, fun k hk => ?_⟩
    have absent := List.find?_eq_none.mp h k (by cases k <;> decide)
    exact absent (beq_iff_eq.mpr hk)

theorem cutNumber_spells (digit : c.isDigit = true) (h : (cutNumber c s).1.form = .token kind) :
    Spells kind (cutNumber c s).1.text := by
  have whole : ∀ d ∈ c :: s.takeWhile Char.isDigit, d.isDigit = true :=
    List.forall_mem_cons.mpr ⟨digit, fun d => List.mem_takeWhile_imp⟩
  have nonempty : c :: s.takeWhile Char.isDigit ≠ [] := List.cons_ne_nil _ _
  cases h
  simp only [cutNumber]
  unfold splitFraction
  split
  · rename_i d rest _
    by_cases behind : d.isDigit = true
    · simp only [if_pos behind]
      exact .fraction nonempty whole (List.cons_ne_nil _ _)
        (List.forall_mem_cons.mpr ⟨behind, fun d => List.mem_takeWhile_imp⟩)
    · simp only [if_neg behind]
      exact .whole nonempty whole
  · exact .whole nonempty whole

theorem cutWord_spells (start : isWordStart c = true) (h : (cutWord c s).1.form = .token kind) :
    Spells kind (cutWord c s).1.text := by
  cases h
  rcases word_kind (String.ofList (c :: s.takeWhile isWordChar)) with ⟨k, hk, spelled⟩ | ⟨hk, apart⟩
  · have spells := Spells.keyword k
    rw [spelled, String.toList_ofList] at spells
    rw [hk]
    exact spells
  · rw [hk]
    exact .name start (fun d => List.mem_takeWhile_imp) apart

theorem cutString_spells (h : (cutString s).1.form = .token kind) :
    Spells kind (cutString s).1.text := by
  unfold cutString at h ⊢
  split at h
  · cases h
  · cases h
    refine .string fun quoted => ?_
    simpa using List.mem_takeWhile_imp quoted

theorem cutOne_spells (h : (cutOne c s).1.form = .token kind) : Spells kind (cutOne c s).1.text := by
  unfold cutOne at h ⊢
  split at h
  · rename_i symbol hc
    cases h
    have spells := Spells.symbol symbol
    rw [← ofChar_spelling hc, String.toList_ofList] at spells
    exact spells
  · cases h

theorem cutSymbol_spells (h : (cutSymbol c s).1.form = .token kind) :
    Spells kind (cutSymbol c s).1.text := by
  unfold cutSymbol at h ⊢
  split at h
  · split at h
    · rename_i symbol hc
      cases h
      have spells := Spells.symbol symbol
      rw [← withEqual_spelling hc, String.toList_ofList] at spells
      exact spells
    · exact cutOne_spells h
  · exact cutOne_spells h

/-- A token is cut with a text of its form. -/
theorem cut_spells (h : (cut c s).1.form = .token kind) : Spells kind (cut c s).1.text := by
  rcases cut_token h with ⟨digit, he⟩ | ⟨word, he⟩ | ⟨-, he⟩ | ⟨-, -, he⟩ <;> rw [he] at h ⊢
  · exact cutNumber_spells digit h
  · exact cutWord_spells word h
  · exact cutString_spells h
  · exact cutSymbol_spells h

/-- A blank follows, or nothing does. -/
def Stops (s : List Char) : Prop := ∀ c ∈ s.head?, isBlank c = true

theorem blank_cases (h : isBlank c = true) : c = ' ' ∨ c = '\t' ∨ c = '\r' ∨ c = '\n' := by
  simpa using isBlank_iff.mp h

theorem blank_not_digit (h : isBlank c = true) : c.isDigit = false := by
  rcases blank_cases h with rfl | rfl | rfl | rfl <;> rfl

theorem blank_not_word (h : isBlank c = true) : isWordChar c = false := by
  rcases blank_cases h with rfl | rfl | rfl | rfl <;> rfl

theorem start_not_digit (h : isWordStart c = true) : c.isDigit = false := by
  rw [← Bool.not_eq_true]
  intro digit
  delta isWordStart Char.isAlpha Char.isUpper Char.isLower at h
  delta Char.isDigit at digit
  simp only [Bool.or_eq_true, Bool.and_eq_true, decide_eq_true_eq, beq_iff_eq,
    UInt32.le_iff_toNat_le, ge_iff_le] at h digit
  have low : ('9' : Char).val.toNat = 57 := rfl
  have upper : ('A' : Char).val.toNat = 65 := rfl
  have lower : ('a' : Char).val.toNat = 97 := rfl
  rcases h with (h | h) | rfl
  · omega
  · omega
  · exact absurd digit.2 (by decide)

theorem run_stops {p : Char → Bool} (other : ∀ c, isBlank c = true → p c = false)
    (all : ∀ c ∈ text, p c = true) (stops : Stops s) :
    (text ++ s).takeWhile p = text ∧ (text ++ s).dropWhile p = s := by
  rw [List.takeWhile_append_of_pos all, List.dropWhile_append_of_pos all]
  cases s with
  | nil => exact ⟨List.append_nil _, rfl⟩
  | cons c s =>
    have ends : ¬ p c = true := by rw [other c (stops c rfl)]; exact Bool.noConfusion
    rw [List.takeWhile_cons_of_neg ends, List.dropWhile_cons_of_neg ends, List.append_nil]
    exact ⟨rfl, rfl⟩

theorem cut_number (digit : c.isDigit = true) (s : List Char) : cut c s = cutNumber c s := by
  have blank : isBlank c ≠ true := fun blank => by
    rw [blank_not_digit blank] at digit
    cases digit
  unfold cut
  rw [if_neg blank, if_pos digit]

theorem cut_word (start : isWordStart c = true) (s : List Char) : cut c s = cutWord c s := by
  have blank : isBlank c ≠ true := fun blank => by
    have word := blank_not_word blank
    rw [isWordChar, start, Bool.true_or] at word
    cases word
  unfold cut
  rw [if_neg blank, if_neg (by rw [start_not_digit start]; exact Bool.noConfusion),
    if_pos start]

def CutAs (kind : Kind) (text s : List Char) : Prop :=
  ∃ c rest, text = c :: rest ∧ cut c (rest ++ s) = (⟨.token kind, text⟩, s)

theorem cut_whole (nonempty : text ≠ []) (digits : ∀ d ∈ text, d.isDigit = true) (stops : Stops s) :
    CutAs (.number (Number.ofDigits text [])) text s := by
  obtain ⟨d, rest, rfl⟩ := List.exists_cons_of_ne_nil nonempty
  obtain ⟨digit, digits⟩ := List.forall_mem_cons.mp digits
  obtain ⟨taken, left⟩ := run_stops (fun _ => blank_not_digit) digits stops
  have plain : splitFraction s = ([], s) := by
    cases s with
    | nil => rfl
    | cons c s =>
      refine splitFraction_of_ne (fun hc => ?_) s
      have blank := stops c rfl
      rw [hc] at blank
      cases blank
  refine ⟨d, rest, rfl, ?_⟩
  rw [cut_number digit]
  simp only [cutNumber, taken, left, plain]
  rfl

theorem cut_fraction {fraction : List Char} (nonempty : text ≠ [])
    (digits : ∀ d ∈ text, d.isDigit = true) (nonempty' : fraction ≠ [])
    (digits' : ∀ d ∈ fraction, d.isDigit = true) (stops : Stops s) :
    CutAs (.number (Number.ofDigits text fraction)) (text ++ '.' :: fraction) s := by
  obtain ⟨d, rest, rfl⟩ := List.exists_cons_of_ne_nil nonempty
  obtain ⟨f, more, rfl⟩ := List.exists_cons_of_ne_nil nonempty'
  obtain ⟨digit, digits⟩ := List.forall_mem_cons.mp digits
  obtain ⟨digit', digits'⟩ := List.forall_mem_cons.mp digits'
  obtain ⟨taken, left⟩ := run_stops (fun _ => blank_not_digit) digits' stops
  have whole : (rest ++ '.' :: f :: more ++ s).takeWhile Char.isDigit = rest := by
    rw [List.append_assoc, List.takeWhile_append_of_pos digits]
    exact List.append_nil rest
  have behind : (rest ++ '.' :: f :: more ++ s).dropWhile Char.isDigit = '.' :: f :: (more ++ s) := by
    rw [List.append_assoc, List.dropWhile_append_of_pos digits]
    rfl
  refine ⟨d, rest ++ '.' :: f :: more, rfl, ?_⟩
  rw [cut_number digit]
  simp only [cutNumber, whole, behind, splitFraction, digit', taken, left]
  rfl

theorem cut_string (unquoted : '"' ∉ text) (s : List Char) :
    CutAs (.string (String.ofList text)) ('"' :: text ++ ['"']) s := by
  have inside : ∀ c ∈ text, (c != '"') = true := fun c hc => by
    rw [bne_iff_ne]
    rintro rfl
    exact unquoted hc
  have taken : (text ++ ['"'] ++ s).takeWhile (· != '"') = text := by
    rw [List.append_assoc, List.takeWhile_append_of_pos inside]
    exact List.append_nil text
  have left : (text ++ ['"'] ++ s).dropWhile (· != '"') = '"' :: s := by
    rw [List.append_assoc, List.dropWhile_append_of_pos inside]
    rfl
  refine ⟨'"', text ++ ['"'], rfl, ?_⟩
  show cutString (text ++ ['"'] ++ s) = _
  simp only [cutString, left, taken]

theorem cut_ofWord {rest : List Char} (start : isWordStart c = true)
    (word : ∀ d ∈ rest, isWordChar d = true) (stops : Stops s) :
    CutAs (Kind.ofWord (String.ofList (c :: rest))) (c :: rest) s := by
  obtain ⟨taken, left⟩ := run_stops (fun _ => blank_not_word) word stops
  refine ⟨c, rest, rfl, ?_⟩
  rw [cut_word start]
  simp only [cutWord, taken, left]

theorem keyword_word (k : Keyword) : ∃ c rest, k.spelling.toList = c :: rest ∧
    isWordStart c = true ∧ (∀ d ∈ rest, isWordChar d = true) ∧
      Kind.ofWord (String.ofList (c :: rest)) = .keyword k := by
  cases k <;> exact ⟨_, _, rfl, by decide, List.all_eq_true.mp (by decide), by decide⟩

theorem cut_operator (symbol : Symbol) (stops : Stops s) :
    CutAs (.symbol symbol) symbol.spelling.toList s := by
  cases s with
  | nil => cases symbol <;> exact ⟨_, _, rfl, rfl⟩
  | cons b s =>
    rcases blank_cases (stops b rfl) with rfl | rfl | rfl | rfl <;> cases symbol <;>
      exact ⟨_, _, rfl, rfl⟩

theorem Spells.cut (h : Spells kind text) (stops : Stops s) : CutAs kind text s := by
  cases h with
  | whole nonempty digits => exact cut_whole nonempty digits stops
  | fraction nonempty digits nonempty' digits' =>
    exact cut_fraction nonempty digits nonempty' digits' stops
  | string unquoted => exact cut_string unquoted s
  | keyword k =>
    obtain ⟨c, rest, spelled, start, word, found⟩ := keyword_word k
    rw [spelled, ← found]
    exact cut_ofWord start word stops
  | @name c rest start word apart =>
    have found : Kind.ofWord (String.ofList (c :: rest)) = .name := by
      rcases word_kind (String.ofList (c :: rest)) with ⟨k, -, spelled⟩ | ⟨found, -⟩
      · exact absurd spelled (apart k)
      · exact found
    rw [← found]
    exact cut_ofWord start word stops
  | symbol symbol => exact cut_operator symbol stops

/-- A text spells tokens of one kind only. -/
theorem Spells.unique {other : Kind} (h : Spells kind text) (h' : Spells other text) :
    kind = other := by
  obtain ⟨c, rest, rfl, cut⟩ := h.cut (s := []) nofun
  obtain ⟨_, _, same, cut'⟩ := h'.cut (s := []) nofun
  cases same
  rw [cut] at cut'
  cases cut'
  rfl

/-- The lexemes in order, with what stands before the first one and behind each. -/
def respaced (before : String) : List (Token × String) → String
  | [] => before
  | (t, behind) :: parts => before ++ t.lexeme ++ respaced behind parts

/-- Blanks, and lexemes with some blank between two of them. -/
structure Separated (before : String) (parts : List (Token × String)) : Prop where
  before : ∀ c ∈ before.toList, isBlank c = true
  behind : ∀ x ∈ parts, ∀ c ∈ x.2.toList, isBlank c = true
  apart : ∀ x ∈ parts.dropLast, x.2 ≠ ""

namespace Separated

variable {before behind : String} {t : Token} {parts : List (Token × String)}

theorem tail (h : Separated before ((t, behind) :: parts)) : Separated behind parts where
  before := h.behind _ List.mem_cons_self
  behind x hx := h.behind x (List.mem_cons_of_mem _ hx)
  apart x hx := by
    cases parts with
    | nil => cases hx
    | cons y parts => exact h.apart x (List.mem_cons_of_mem _ hx)

theorem stops (h : Separated before ((t, behind) :: parts)) :
    Stops (respaced behind parts).toList := by
  cases hb : behind.toList with
  | cons c rest =>
    have first : (respaced behind parts).toList.head? = some c := by
      cases parts with
      | nil => rw [respaced, hb]; rfl
      | cons y parts => simp [respaced, hb]
    intro d hd
    rw [first] at hd
    cases hd
    exact h.tail.before c (by rw [hb]; exact List.mem_cons_self)
  | nil =>
    have empty : behind = "" := String.toList_inj.mp hb
    cases parts with
    | nil => rw [respaced, hb]; nofun
    | cons y parts => exact absurd empty (h.apart (t, behind) List.mem_cons_self)

end Separated

theorem found_blanks {α : Type} {f : Nat → Piece → Option α}
    (ignored : ∀ line text, f line ⟨.blank, text⟩ = none) (blanks : ∀ c ∈ text, isBlank c = true)
    (line : Nat) (s : List Char) : found f line (text ++ s) = found f (line + newlines text) s := by
  induction text generalizing line with
  | nil => rfl
  | cons c text ih =>
    obtain ⟨blank, blanks⟩ := List.forall_mem_cons.mp blanks
    rw [List.cons_append, found_blank ignored line blank, ih blanks, Nat.add_assoc,
      ← newlines_append]
    rfl

theorem found_respaced {before : String} {parts : List (Token × String)}
    (separated : Separated before parts)
    (spelled : ∀ x ∈ parts, Spells x.1.kind x.1.lexeme.toList) (line : Nat) :
    found Piece.report? line (respaced before parts).toList = [] ∧
      (found Piece.token? line (respaced before parts).toList).map (fun t => (t.kind, t.lexeme)) =
        parts.map fun x => (x.1.kind, x.1.lexeme) := by
  induction parts generalizing before line with
  | nil =>
    have blanks := separated.before
    rw [respaced, ← List.append_nil before.toList, found_blanks (fun _ _ => rfl) blanks,
      found_blanks (fun _ _ => rfl) blanks, found_nil, found_nil]
    exact ⟨rfl, rfl⟩
  | cons x parts ih =>
    obtain ⟨t, behind⟩ := x
    obtain ⟨spells, spelled⟩ := List.forall_mem_cons.mp spelled
    obtain ⟨c, rest, text, cut⟩ := spells.cut separated.stops
    have blanks := separated.before
    rw [respaced, String.toList_append, String.toList_append, List.append_assoc,
      found_blanks (fun _ _ => rfl) blanks, found_blanks (fun _ _ => rfl) blanks, text,
      List.cons_append, found_cons, found_cons, cut]
    obtain ⟨clean, tokens⟩ := ih separated.tail spelled
      (line + newlines before.toList + newlines t.lexeme.toList)
    refine ⟨clean, ?_⟩
    rw [List.map_append, tokens]
    simp [Piece.token?, String.ofList_toList]

theorem pieces_spell (s : List Char) :
    ∀ p ∈ pieces s, ∀ kind, p.form = .token kind → Spells kind p.text := by
  fun_induction pieces s with
  | case1 => exact List.forall_mem_nil _
  | case2 c s ih => exact List.forall_mem_cons.mpr ⟨fun _ => cut_spells, ih⟩

theorem scan_spells (source : String) :
    ∀ t ∈ (scan source).tokens, Spells t.kind t.lexeme.toList := by
  intro t ht
  obtain ⟨⟨line, p⟩, hx, hp⟩ := List.mem_filterMap.mp ht
  simp only [Piece.token?] at hp
  split at hp
  · rename_i kind hk
    cases hp
    rw [String.toList_ofList]
    exact pieces_spell source.toList p (mem_located hx) kind hk
  · cases hp

/-- The lexemes of a source, complained of or not, with blanks between them are scanned as tokens of
the same kinds, lexemes and values, in the same order and without complaints. -/
theorem scan_respaced (source before : String) (parts : List (Token × String))
    (tokens : parts.map Prod.fst = (scan source).tokens) (separated : Separated before parts) :
    let again := scan (respaced before parts)
    again.reports = [] ∧ again.tokens.map (fun t => (t.kind, t.lexeme)) =
      (scan source).tokens.map fun t => (t.kind, t.lexeme) := by
  have spelled : ∀ x ∈ parts, Spells x.1.kind x.1.lexeme.toList := fun x hx =>
    scan_spells source x.1 (tokens ▸ List.mem_map_of_mem hx)
  obtain ⟨clean, same⟩ := found_respaced separated spelled 1
  refine ⟨clean, ?_⟩
  rw [← tokens, List.map_map]
  exact same

/-- A string that looks like a comment, a keyword, a fraction before a point, a doubled sign and a
division, with a stray character between. -/
theorem scan_respaced_adjacent :
    let source := "\"/*\"for=1.5.==/#x"
    let parts := (scan source).tokens.map fun t => (t, "\t\n")
    parts.map Prod.fst = (scan source).tokens ∧ Separated " " parts ∧ parts.length = 8 ∧
      (scan (respaced " " parts)).reports = [] ∧
      (scan (respaced " " parts)).tokens.map (fun t => (t.kind, t.lexeme)) =
        (scan source).tokens.map fun t => (t.kind, t.lexeme) := by
  intro source parts
  have tokens : parts.map Prod.fst = (scan source).tokens := by
    rw [List.map_map]
    exact List.map_id _
  have separated : Separated " " parts := by
    refine ⟨List.all_eq_true.mp (by decide), fun x hx => ?_, fun x hx => ?_⟩
    · obtain ⟨t, -, rfl⟩ := List.mem_map.mp hx
      exact List.all_eq_true.mp (by decide : "\t\n".toList.all isBlank = true)
    · obtain ⟨t, -, rfl⟩ := List.mem_map.mp ((List.dropLast_sublist _).subset hx)
      exact (by decide : "\t\n" ≠ "")
  exact ⟨tokens, separated, by decide +kernel, scan_respaced source " " parts tokens separated⟩

end Script.Source
