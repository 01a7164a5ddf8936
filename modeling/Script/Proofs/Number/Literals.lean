import Script.Machine
import Script.Proofs.Number.Rounding
import Script.Proofs.Source.Lexemes

/-! Whole numbers as they are written and printed.
A literal of decimal digits is the double nearest to what they mean. -/
namespace Script.Number

open Source

variable {n : Nat}

/-- What decimal digits mean. -/
def meant (s : String) : Nat := Nat.ofDigitChars 10 s.toList 0

/-- Decimal digits are scanned as one token, the double nearest to what they mean. -/
theorem scan_digits {s : String} (nonempty : s ≠ "") (digits : ∀ c ∈ s.toList, c.isDigit = true) :
    scan s = ⟨[⟨.number (nearest (meant s) 1), s, 1⟩], [], 1⟩ := by
  have filled : s.toList ≠ [] := fun h => nonempty (String.toList_inj.mp h)
  obtain ⟨c, rest, text, cut⟩ := cut_whole (s := []) filled digits nofun
  rw [List.append_nil] at cut
  have single : pieces s.toList = [⟨.token (.number (ofDigits s.toList [])), s.toList⟩] := by
    rw [text, pieces, cut, pieces, ← text]
  have line : newlines s.toList = 0 := by
    refine List.count_eq_zero.mpr fun newline => ?_
    cases digits _ newline
  have value : ofDigits s.toList [] = nearest (meant s) 1 := by
    rw [ofDigits, List.append_nil]
    rfl
  rw [scan, scanChars, single, line, value]
  simp [located, Piece.token?, Piece.report?]

theorem repr_ne_empty (v : Nat) : v.repr ≠ "" := by
  intro h
  have empty := congrArg String.toList h
  rw [Nat.toList_repr] at empty
  exact Nat.toDigits_ne_nil empty

theorem scan_repr (v : Nat) : scan v.repr = ⟨[⟨.number (nearest v 1), v.repr, 1⟩], [], 1⟩ := by
  have digits : ∀ c ∈ v.repr.toList, c.isDigit = true := by
    rw [Nat.toList_repr]
    exact fun c hc => Nat.isDigit_of_mem_toDigits (by decide) (by decide) hc
  have read := scan_digits (repr_ne_empty v) digits
  rwa [meant, Nat.toList_repr, Nat.ofDigitChars_toDigits (by decide) (by decide)] at read

theorem printed_of_whole {x : Float} {v : Nat} (finite : x.isFinite = true)
    (positive : isNegative x = false) (whole : (magnitude x).IsWhole v) : printed x = v.repr := by
  rw [printed, finite, whole.whole?, positive]
  simp
  rfl

/-- Below the bound the nearest double is a whole number, and it is printed in full. -/
theorem nearest_below_bound (small : n < 2 ^ 1024 - 2 ^ 970) :
    IsNearest n (nearest n 1) ∧ value (nearest n 1) = rounded n ∧
      printed (nearest n 1) = (rounded n).repr := by
  rcases Nat.eq_zero_or_pos n with rfl | positive
  · have zero : value (nearest 0 1) = 0 := by
      have magnitude : magnitude (nearest 0 1) = ⟨0, -1074⟩ := by decide +kernel
      have sign : isNegative (nearest 0 1) = false := by decide +kernel
      rw [value, sign, magnitude, Magnitude.value]
      simp
    have nearer (y : Float) : |value (nearest 0 1) - (0 : ℕ)| ≤ |value y - (0 : ℕ)| := by
      simp [zero]
    have only (y : Float) : |value y - (0 : ℕ)| = |value (nearest 0 1) - (0 : ℕ)| →
        value y = value (nearest 0 1) := by
      simp [zero]
    refine ⟨⟨by decide +kernel, fun y _ => nearer y,
      fun y _ same other => absurd (only y same) other⟩, ?_, by decide +kernel⟩
    rw [zero, rounded_of_le (Nat.zero_le _), Nat.cast_zero]
  · have fits := (fits_iff positive).mpr small
    exact ⟨nearest_isNearest positive fits, value_nearest positive fits,
      printed_of_whole (isFinite_nearest positive fits) (isNegative_nearest positive fits)
        (magnitude_nearest_isWhole positive fits)⟩

theorem lt_bound (small : n < 2 ^ 54 - 1) : n < 2 ^ 1024 - 2 ^ 970 := by
  have half_pos : 0 < 2 ^ 970 := pow_pos Nat.two_pos 970
  rw [overflow_power]
  generalize 2 ^ 970 = half at half_pos
  omega

/-- From the bound on the nearest double is infinite. -/
theorem printed_above_bound (large : 2 ^ 1024 - 2 ^ 970 ≤ n) : printed (nearest n 1) = "inf" := by
  have positive : 0 < n := by
    by_contra zero
    exact absurd large (Nat.not_le.mpr (lt_bound (by omega)))
  have overflow := mt (fits_iff positive).mp (Nat.not_lt.mpr large)
  have bits : nearestBits n 1 = infinityBits := by
    rw [nearestBits_whole positive]
    exact Nat.min_eq_right (Nat.not_lt.mp overflow)
  rw [nearest, bits]
  decide +kernel

/-- Decimal digits are scanned as one token, a number. What they mean is printed as it is up to
2^53. Beyond, the nearest double is printed in full, and that text is scanned as the same number
again; from half a unit below 2^1024 on it is infinite. -/
theorem digits_printed (s : String) (nonempty : s ≠ "") (digits : ∀ c ∈ s.toList, c.isDigit = true)
    (m : Machine) :
    ∃ x text, scan s = ⟨[⟨.number x, s, 1⟩], [], 1⟩ ∧ m.text (.ofLiteral (.number x)) = text ∧
      (meant s ≤ 2 ^ 53 → text = (meant s).repr) ∧
      (meant s < 2 ^ 1024 - 2 ^ 970 → IsNearest (meant s) x ∧
        (∃ v : Nat, text = v.repr ∧ value x = v) ∧
        scan text = ⟨[⟨.number x, text, 1⟩], [], 1⟩) ∧
      (2 ^ 1024 - 2 ^ 970 ≤ meant s → text = "inf") := by
  refine ⟨_, _, scan_digits nonempty digits, rfl, ?_⟩
  show (_ → printed _ = _) ∧ _
  generalize meant s = n
  refine ⟨fun small => ?_, fun small => ?_, printed_above_bound⟩
  · rw [(nearest_below_bound (lt_bound (by omega))).2.2, rounded_of_le small]
  · obtain ⟨near, exact, text⟩ := nearest_below_bound small
    have again : nearest (rounded n) 1 = nearest n 1 := by
      rw [nearest, nearestBits_rounded, ← nearest]
    refine ⟨near, ⟨rounded n, text, exact⟩, ?_⟩
    show scan (printed _) = ⟨[⟨_, printed _, 1⟩], [], 1⟩
    rw [text, scan_repr, again]

/-- One more than 2^53 lies half way between two doubles and is printed as the even one. -/
theorem digits_printed_tie :
    "09007199254740993" ≠ "" ∧ (∀ c ∈ "09007199254740993".toList, c.isDigit = true) ∧
      ∃ x, scan "09007199254740993" = ⟨[⟨.number x, "09007199254740993", 1⟩], [], 1⟩ ∧
        (Machine.initial fun _ => 0).text (.number x) = "9007199254740992" ∧
        IsNearest 9007199254740993 x := by
  have nonempty : "09007199254740993" ≠ "" := by decide
  have digits : ∀ c ∈ "09007199254740993".toList, c.isDigit = true :=
    List.all_eq_true.mp (by decide)
  have meaning : meant "09007199254740993" = 9007199254740993 := by decide +kernel
  obtain ⟨x, text, tokens, -, -, below, -⟩ :=
    digits_printed _ nonempty digits (.initial fun _ => 0)
  rw [meaning] at below
  have same : x = nearest 9007199254740993 1 := by
    rw [scan_digits nonempty digits, meaning] at tokens
    simpa using (congrArg Scan.tokens tokens).symm
  refine ⟨nonempty, digits, x, tokens, ?_, ?_⟩
  · rw [same]
    show printed _ = _
    decide +kernel
  · exact_mod_cast (below (lt_bound (by decide))).1

end Script.Number
