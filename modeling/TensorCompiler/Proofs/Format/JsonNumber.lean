import Mathlib.Data.List.TakeWhile
import TensorCompiler.Format.JsonValue
import TensorCompiler.Proofs.Format.JsonText

/-!
Numbers as they are written. The digits of a natural number are read as that number (`nat?_ofNat`),
also as a key (`idKey?_toDigits`), and the text of a finite number is one that can be read
(`isNumber_decimalText`).
-/

namespace TensorCompiler

namespace Json

/-! ## Digits -/

theorem isDigit_of_mem_toDigits {n : Nat} {c : Char} (h : c ∈ Nat.toDigits 10 n) :
    isDigit c = true := by
  have hc := Nat.isDigit_of_mem_toDigits (by decide) (by decide) h
  simp only [Char.isDigit, Bool.and_eq_true, decide_eq_true_eq] at hc
  simp only [isDigit, Bool.and_eq_true, decide_eq_true_eq]
  exact hc

theorem digits_toDigits (n : Nat) : Digits (Nat.toDigits 10 n) :=
  ⟨List.ne_nil_of_length_pos Nat.length_toDigits_pos, fun _ h => isDigit_of_mem_toDigits h⟩

theorem head?_toDigits {n : Nat} (hn : n ≠ 0) : (Nat.toDigits 10 n).head? ≠ some '0' := by
  induction n using Nat.strongRecOn with
  | ind n ih =>
    by_cases hlt : n < 10
    · have hdigit : ∀ d < 10, d ≠ 0 → [Nat.digitChar d].head? ≠ some '0' := by decide
      rw [Nat.toDigits_of_lt_base hlt]
      exact hdigit n hlt hn
    · rw [Nat.toDigits_of_base_le (by decide) (by omega),
        List.head?_append_of_ne_nil _ (digits_toDigits _).1]
      exact ih (n / 10) (by omega) (by omega)

theorem whole_toDigits (n : Nat) : Whole (Nat.toDigits 10 n) := by
  by_cases hn : n = 0
  · exact .inl (hn ▸ rfl)
  · exact .inr ⟨digits_toDigits n, head?_toDigits hn⟩

theorem isNumber_of_whole {cs : List Char} (h : Whole cs) : IsNumber cs :=
  ⟨cs, ⟨cs, [], [], h, .inl rfl, .inl rfl, by simp⟩, .inl rfl⟩

theorem written_ofNat (n : Nat) : Written (ofNat n) :=
  .number (isNumber_of_whole (whole_toDigits n))

/-! ## Natural numbers -/

theorem significand_append {start m : Nat} {cs ds : List Char}
    (h : significand start cs = (m, [])) : significand start (cs ++ ds) = significand m ds := by
  induction cs generalizing start with
  | nil =>
    rw [significand, Prod.mk.injEq] at h
    rw [List.nil_append, h.1]
  | cons c cs ih =>
    simp only [significand] at h
    rw [List.cons_append, significand]
    split at h
    · next hlt => rw [if_pos hlt, ih h]
    · simp at h

theorem significand_toDigits {n : Nat} (hn : n < UInt64.size) :
    significand 0 (Nat.toDigits 10 n) = (n, []) := by
  induction n using Nat.strongRecOn with
  | ind n ih =>
    by_cases hlt : n < 10
    · rw [Nat.toDigits_of_lt_base hlt]
      simp [significand, Nat.toNat_digitChar_sub_48_of_lt_ten hlt, hn]
    · have hmod : n % 10 < 10 := Nat.mod_lt _ (by decide)
      have hsum : n / 10 * 10 + n % 10 = n := Nat.div_add_mod' n 10
      rw [Nat.toDigits_of_base_le (by decide) (by omega),
        significand_append (ih (n / 10) (by omega) (by omega))]
      simp [significand, Nat.toNat_digitChar_sub_48_of_lt_ten hmod, hsum, hn]

theorem takeWhile_toDigits {p : Char → Bool} (hp : ∀ c, isDigit c = true → p c = true) (n : Nat) :
    (Nat.toDigits 10 n).takeWhile p = Nat.toDigits 10 n :=
  List.takeWhile_eq_self_iff.2 fun c hc => hp c (isDigit_of_mem_toDigits hc)

theorem ne_of_isDigit {c d : Char} (hc : isDigit c = true) (hd : isDigit d = false) : c ≠ d := by
  rintro rfl
  simp [hd] at hc

theorem ofLexeme_toDigits {n : Nat} (hn : n < UInt64.size) :
    Numeral.ofLexeme (Nat.toDigits 10 n) = ⟨false, ⟨n, 0⟩, true⟩ := by
  have hminus : (Nat.toDigits 10 n).head? ≠ some '-' := fun h =>
    absurd (isDigit_of_mem_toDigits (List.mem_of_mem_head? h)) (by decide)
  have hmantissa := takeWhile_toDigits (p := fun c => c ≠ 'e' && c ≠ 'E')
    (fun c hc => by simp [ne_of_isDigit hc (d := 'e') rfl, ne_of_isDigit hc (d := 'E') rfl]) n
  have hwhole := takeWhile_toDigits (p := (· ≠ '.'))
    (fun c hc => by simp [ne_of_isDigit hc (d := '.') rfl]) n
  simp only [Numeral.ofLexeme, hminus, decide_false, if_false, hmantissa, hwhole,
    significand_toDigits hn, List.drop_length, List.drop_nil, significand]
  simp [exponentOf, natOfDigits]

theorem nat?_ofNat {n limit : Nat} (h : n < limit) (hlimit : limit ≤ UInt64.size) :
    nat? limit (ofNat n) = some n := by
  simp [nat?, ofNat, ofLexeme_toDigits (Nat.lt_of_lt_of_le h hlimit), h]

theorem idKey?_toDigits {n : Nat} (h : n < UInt32.size) :
    idKey? (Nat.toDigits 10 n) = some n := by
  have hread := readNumber_append (isNumber_of_whole (whole_toDigits n)) ends_nil
  rw [List.append_nil] at hread
  rw [idKey?, hread]
  exact nat?_ofNat h (by decide)

/-- Digits need no escape. -/
theorem escape_toDigits (n : Nat) : escape (Nat.toDigits 10 n) = Nat.toDigits 10 n := by
  have hdigit {c : Char} (hc : isDigit c = true) : escapeChar c = [c] := by
    have hle : 48 ≤ c.toNat := by
      simp only [isDigit, Bool.and_eq_true, decide_eq_true_eq] at hc
      exact hc.1
    have hne {d : Char} (hd : isDigit d = false) : c ≠ d := ne_of_isDigit hc hd
    simp [escapeChar, hne (d := '"'), hne (d := '\\'), hne (d := '\n'), hne (d := '\r'),
      hne (d := '\t'), hne (d := '\x08'), hne (d := '\x0c'), isDigit]
    omega
  rw [escape, List.flatMap_congr fun c hc => hdigit (isDigit_of_mem_toDigits hc)]
  simp

end Json

/-! ## Single-precision numbers -/

namespace Decimal

open Json

theorem trim_ne_zero {d : Decimal} (h : d.digits ≠ 0) : d.trim.digits ≠ 0 := by
  have hgo (fuel n : Nat) (e : Int) (hn : n ≠ 0) : (trim.go fuel n e).digits ≠ 0 := by
    induction fuel generalizing n e with
    | zero => exact hn
    | succ fuel ih =>
      rw [trim.go]
      split
      · exact ih _ _ (by omega)
      · exact hn
  exact hgo _ _ _ h

theorem isDigit_of_mem_zeros {n : Nat} {c : Char} (h : c ∈ List.replicate n '0') :
    isDigit c = true := by
  rw [List.eq_of_mem_replicate h]
  rfl

/-- The first digits of a number that is not zero, and more digits behind them. -/
theorem whole_take {n k : Nat} {cs : List Char} (hn : n ≠ 0) (hk : 0 < k)
    (hcs : ∀ c ∈ cs, isDigit c = true) : Whole ((Nat.toDigits 10 n).take k ++ cs) := by
  have hhead : ((Nat.toDigits 10 n).take k).head? = (Nat.toDigits 10 n).head? := by
    rw [List.head?_take, if_neg hk.ne']
  have hne : (Nat.toDigits 10 n).take k ≠ [] := by
    simp [(digits_toDigits n).1, hk.ne']
  refine .inr ⟨⟨List.append_ne_nil_of_left_ne_nil hne _, ?_⟩, ?_⟩
  · intro c hc
    rcases List.mem_append.1 hc with hc | hc
    · exact isDigit_of_mem_toDigits (List.mem_of_mem_take hc)
    · exact hcs c hc
  · rw [List.head?_append_of_ne_nil _ hne, hhead]
    exact head?_toDigits hn

theorem digits_drop {n k : Nat} (hk : k < (Nat.toDigits 10 n).length) :
    Digits ((Nat.toDigits 10 n).drop k) := by
  refine ⟨?_, fun c hc => isDigit_of_mem_toDigits (List.mem_of_mem_drop hc)⟩
  simpa using hk

theorem isMagnitude_positional {d : Decimal} (h : d.digits ≠ 0) :
    IsMagnitude (d.positional true).toList := by
  have hlength : 0 < (Nat.toDigits 10 d.digits).length := Nat.length_toDigits_pos
  simp only [positional]
  split
  · have hwhole := whole_take h hlength fun c => isDigit_of_mem_zeros (n := d.exponent.toNat)
    rw [List.take_length] at hwhole
    exact ⟨_, ['.', '0'], [], hwhole, .inr ⟨['0'], by simp [Digits, isDigit], rfl⟩, .inl rfl,
      by simp [zeros]⟩
  split
  · next hlt =>
    -- the point stands before the last `after` digits
    obtain ⟨k, hk⟩ : ∃ k, k = (Nat.toDigits 10 d.digits).length - (-d.exponent).toNat := ⟨_, rfl⟩
    rw [← hk]
    have hwhole := whole_take (k := k) h (by omega) fun c (hc : c ∈ []) =>
      absurd hc List.not_mem_nil
    have hdigits : Digits ((Nat.toDigits 10 d.digits).drop k) := digits_drop (by omega)
    exact ⟨_, _, [], hwhole, .inr ⟨_, hdigits, rfl⟩, .inl rfl, by simp⟩
  · have hdigits : Digits (List.replicate ((-d.exponent).toNat - (Nat.toDigits 10 d.digits).length)
        '0' ++ Nat.toDigits 10 d.digits) := by
      refine ⟨List.append_ne_nil_of_right_ne_nil _ (digits_toDigits _).1, fun c hc => ?_⟩
      exact (List.mem_append.1 hc).elim isDigit_of_mem_zeros isDigit_of_mem_toDigits
    exact ⟨['0'], _, [], .inl rfl, .inr ⟨_, hdigits, rfl⟩, .inl rfl, by simp [zeros]⟩

theorem isMagnitude_scientific {d : Decimal} (h : d.digits ≠ 0) :
    IsMagnitude d.scientific.toList := by
  have hwhole := whole_take (k := 1) h Nat.one_pos fun c (hc : c ∈ []) =>
    absurd hc List.not_mem_nil
  have hfraction : Fraction (if (Nat.toDigits 10 d.digits).length ≤ 1 then ""
      else "." ++ String.ofList ((Nat.toDigits 10 d.digits).drop 1)).toList := by
    split
    · exact .inl rfl
    · next hlt => exact .inr ⟨_, digits_drop (n := d.digits) (k := 1) (by omega), by simp⟩
  have hexponent (order : Int) :
      Exponent ("e" ++ (if order < 0 then "-" else "+") ++ Nat.repr order.natAbs).toList := by
    split
    · exact .inr ⟨'-', _, .inr rfl, digits_toDigits order.natAbs, by simp⟩
    · exact .inr ⟨'+', _, .inl rfl, digits_toDigits order.natAbs, by simp⟩
  exact ⟨_, _, _, hwhole, hfraction,
    hexponent (d.exponent + ((Nat.toDigits 10 d.digits).length : Int) - 1), by simp [scientific]⟩

end Decimal

namespace Single

open Json

/-- Zero is nearest to zero alone. -/
theorem shortest_ne_zero {x : Single} (hx : x.isFinite = true) (h : x.pattern ≠ 0) :
    (x.shortest false).digits ≠ 0 := by
  intro hzero
  apply h
  rw [← direct_shortest false hx, Decimal.direct, Decimal.toPattern, if_pos (.inl hzero)]

theorem isNumber_decimalText {x : Single} (hx : x.isFinite = true) :
    IsNumber x.decimalText.toList := by
  have hsign {text : String} (htext : IsMagnitude text.toList) :
      IsNumber ((if x.isNegative then "-" else "") ++ text).toList := by
    refine ⟨text.toList, htext, ?_⟩
    split
    · exact .inr (by simp)
    · exact .inl (by simp)
  simp only [decimalText]
  by_cases hpattern : x.pattern = 0
  · rw [if_pos hpattern]
    exact hsign ⟨['0'], ['.', '0'], [], .inl rfl, .inr ⟨['0'], by simp [Digits, isDigit], rfl⟩,
      .inl rfl, rfl⟩
  · have htrim := Decimal.trim_ne_zero (shortest_ne_zero hx hpattern)
    rw [if_neg hpattern]
    refine hsign ?_
    split
    · exact Decimal.isMagnitude_positional htrim
    · exact Decimal.isMagnitude_scientific htrim

end Single

theorem Json.written_ofSingle (x : Single) : Written (ofSingle x) := by
  unfold ofSingle
  split
  · next hx => exact .number (Single.isNumber_decimalText hx)
  · exact .null

end TensorCompiler
