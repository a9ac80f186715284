import Mathlib.Data.List.Basic
import TensorCompiler.Format.JsonText

/-!
Reading what is printed. A tree is `Written` when its strings are escaped and its numbers have the
form that the reader takes (`IsNumber`); such a tree is read back from its text
(`ofText?_pretty`), and a string from its escaped form (`unescape_escape`).
-/

namespace TensorCompiler.Json

/-! ## Strings -/

theorem hexDigit?_digitChar {d : Nat} (h : d < 16) : hexDigit? (Nat.digitChar d) = some d := by
  revert d
  decide

theorem hex4?_control {n : Nat} (h : n < 32) :
    hex4? '0' '0' (Nat.digitChar (n / 16)) (Nat.digitChar (n % 16)) = some n := by
  have hzero : hexDigit? '0' = some 0 := rfl
  have hhigh := hexDigit?_digitChar (d := n / 16) (by omega)
  have hlow := hexDigit?_digitChar (d := n % 16) (by omega)
  simp only [hex4?, hzero, hhigh, hlow, Option.bind_eq_bind, Option.bind_some]
  congr
  omega

theorem unitChar?_toNat (c : Char) : unitChar? c.toNat = some c := by
  have hvalid : c.toNat.isValidChar := c.valid
  rw [unitChar?, dif_pos hvalid]
  rfl

/-- The three ways to write a character: a short escape, its number, or the character itself. -/
theorem escapeChar_cases (c : Char) :
    (∃ e, shortEscape? e = some c ∧ e ≠ 'u' ∧ escapeChar c = ['\\', e]) ∨
      (c.toNat < 32 ∧ escapeChar c = ['\\', 'u', '0', '0', Nat.digitChar (c.toNat / 16),
        Nat.digitChar (c.toNat % 16)]) ∨
      (c ≠ '"' ∧ c ≠ '\\' ∧ 32 ≤ c.toNat ∧ escapeChar c = [c]) := by
  unfold escapeChar
  split
  · next h => exact .inl ⟨'"', by rw [h]; rfl, by decide, rfl⟩
  split
  · next h => exact .inl ⟨'\\', by rw [h]; rfl, by decide, rfl⟩
  split
  · next h => exact .inl ⟨'n', by rw [h]; rfl, by decide, rfl⟩
  split
  · next h => exact .inl ⟨'r', by rw [h]; rfl, by decide, rfl⟩
  split
  · next h => exact .inl ⟨'t', by rw [h]; rfl, by decide, rfl⟩
  split
  · next h => exact .inl ⟨'b', by rw [h]; rfl, by decide, rfl⟩
  split
  · next h => exact .inl ⟨'f', by rw [h]; rfl, by decide, rfl⟩
  split
  · next h => exact .inr (.inl ⟨h, rfl⟩)
  · next hquote hslash _ _ _ _ _ h => exact .inr (.inr ⟨hquote, hslash, by omega, rfl⟩)

/-- An escaped character is read up to its end, and the reader goes on behind it. -/
theorem readRaw_escapeChar (c : Char) (rest : List Char) : readRaw (escapeChar c ++ rest) =
    (readRaw rest).map fun p => (escapeChar c ++ p.1, p.2) := by
  rcases escapeChar_cases c with ⟨e, he, hu, hc⟩ | ⟨hlt, hc⟩ | ⟨hquote, hslash, hle, hc⟩
  · simp [hc, readRaw, he, hu]
  · simp [hc, readRaw, hex4?_control hlt]
  · simp [hc, readRaw, hslash, Nat.not_lt.2 hle]

theorem readRaw_escape (s rest : List Char) :
    readRaw (escape s ++ '"' :: rest) = some (escape s, rest) := by
  induction s with
  | nil => simp [escape, readRaw]
  | cons c s ih =>
    rw [escape, List.flatMap_cons, List.append_assoc, readRaw_escapeChar]
    rw [escape] at ih
    rw [ih, Option.map_some]

theorem unescape_escapeChar (c : Char) (rest : List Char) :
    unescape (escapeChar c ++ rest) = (unescape rest).map (c :: ·) := by
  rcases escapeChar_cases c with ⟨e, he, hu, hc⟩ | ⟨hlt, hc⟩ | ⟨-, hslash, -, hc⟩
  · simp [hc, unescape, he, hu]
  · simp [hc, unescape, hex4?_control hlt, unitChar?_toNat]
  · simp [hc, unescape, hslash]

theorem unescape_escape (s : List Char) : unescape (escape s) = some s := by
  induction s with
  | nil => simp [escape, unescape]
  | cons c s ih =>
    rw [escape, List.flatMap_cons, unescape_escapeChar]
    rw [escape] at ih
    rw [ih, Option.map_some]

/-! ## Numbers -/

/-- A run of digits, at least one. -/
def Digits (cs : List Char) : Prop := cs ≠ [] ∧ ∀ c ∈ cs, isDigit c = true

/-- A lone zero, or digits that do not start with one. -/
def Whole (cs : List Char) : Prop := cs = ['0'] ∨ Digits cs ∧ cs.head? ≠ some '0'

def Fraction (cs : List Char) : Prop := cs = [] ∨ ∃ ds, Digits ds ∧ cs = '.' :: ds

def Exponent (cs : List Char) : Prop :=
  cs = [] ∨ ∃ s ds, (s = '+' ∨ s = '-') ∧ Digits ds ∧ cs = 'e' :: s :: ds

def IsMagnitude (cs : List Char) : Prop :=
  ∃ whole fraction exponent, Whole whole ∧ Fraction fraction ∧ Exponent exponent ∧
    cs = whole ++ fraction ++ exponent

def IsNumber (cs : List Char) : Prop := ∃ m, IsMagnitude m ∧ (cs = m ∨ cs = '-' :: m)

/-- No number can go on with what follows it. -/
def Ends (rest : List Char) : Prop :=
  ∀ c ∈ rest.head?, isDigit c = false ∧ c ≠ '.' ∧ c ≠ 'e' ∧ c ≠ 'E'

@[simp] theorem ends_nil : Ends [] := by simp [Ends]

theorem ends_comma (rest : List Char) : Ends (',' :: rest) := by simp [Ends, isDigit]

theorem ends_newline (rest : List Char) : Ends ('\n' :: rest) := by simp [Ends, isDigit]

theorem readDigits_append {ds rest : List Char} (hds : Digits ds)
    (hrest : ∀ c ∈ rest.head?, isDigit c = false) : readDigits (ds ++ rest) = some (ds, rest) := by
  have htake : (ds ++ rest).takeWhile isDigit = ds := by
    rw [List.takeWhile_append_of_pos hds.2]
    cases rest with
    | nil => simp
    | cons c rest => simp [hrest c rfl]
  have hdrop : (ds ++ rest).dropWhile isDigit = rest := by
    rw [List.dropWhile_append_of_pos hds.2]
    cases rest with
    | nil => rfl
    | cons c rest => simp [hrest c rfl]
  rw [readDigits, htake, hdrop, if_neg hds.1]

theorem readWhole_append {ds rest : List Char} (hds : Whole ds)
    (hrest : ∀ c ∈ rest.head?, isDigit c = false) : readWhole (ds ++ rest) = some (ds, rest) := by
  rcases hds with rfl | ⟨hds, hzero⟩
  · rfl
  · cases ds with
    | nil => exact absurd rfl hds.1
    | cons d ds =>
      have hd : d ≠ '0' := by simpa using hzero
      rw [← readDigits_append hds hrest]
      simp [readWhole, hd]

theorem readExponent_append {cs rest : List Char} (hcs : Exponent cs) (hrest : Ends rest) :
    readExponent (cs ++ rest) = some (cs, rest) := by
  rcases hcs with rfl | ⟨s, ds, hs, hds, rfl⟩
  · cases rest with
    | nil => rfl
    | cons c rest => simp [readExponent, (hrest c rfl).2.2]
  · simp [readExponent, hs, readDigits_append hds fun c hc => (hrest c hc).1]

theorem readFraction_append {cs rest : List Char} (hcs : Fraction cs)
    (hrest : ∀ c ∈ rest.head?, isDigit c = false ∧ c ≠ '.') :
    readFraction (cs ++ rest) = some (cs, rest) := by
  rcases hcs with rfl | ⟨ds, hds, rfl⟩
  · cases rest with
    | nil => rfl
    | cons c rest => simp [readFraction, (hrest c rfl).2]
  · simp [readFraction, readDigits_append hds fun c hc => (hrest c hc).1]

theorem readMagnitude_append {cs rest : List Char} (hcs : IsMagnitude cs) (hrest : Ends rest) :
    readMagnitude (cs ++ rest) = some (cs, rest) := by
  obtain ⟨whole, fraction, exponent, hwhole, hfraction, hexponent, rfl⟩ := hcs
  have hafter : ∀ c ∈ (exponent ++ rest).head?, isDigit c = false ∧ c ≠ '.' := by
    rcases hexponent with rfl | ⟨s, ds, -, -, rfl⟩
    · exact fun c hc => ⟨(hrest c hc).1, (hrest c hc).2.1⟩
    · simp [isDigit]
  have hpoint : ∀ c ∈ (fraction ++ (exponent ++ rest)).head?, isDigit c = false := by
    rcases hfraction with rfl | ⟨ds, -, rfl⟩
    · exact fun c hc => (hafter c hc).1
    · simp [isDigit]
  simp [readMagnitude, readWhole_append hwhole hpoint, readFraction_append hfraction hafter,
    readExponent_append hexponent hrest]

theorem IsMagnitude.head {cs : List Char} (h : IsMagnitude cs) :
    ∃ c rest, cs = c :: rest ∧ isDigit c = true := by
  obtain ⟨whole, fraction, exponent, hwhole, -, -, rfl⟩ := h
  rcases hwhole with rfl | ⟨⟨hne, hdigits⟩, -⟩
  · exact ⟨'0', _, rfl, rfl⟩
  · cases whole with
    | nil => exact absurd rfl hne
    | cons c ds => exact ⟨c, _, rfl, hdigits c List.mem_cons_self⟩

theorem readNumber_append {cs rest : List Char} (hcs : IsNumber cs) (hrest : Ends rest) :
    readNumber (cs ++ rest) = some (cs, rest) := by
  obtain ⟨m, hm, rfl | rfl⟩ := hcs
  · obtain ⟨c, ds, rfl, hc⟩ := hm.head
    have hminus : c ≠ '-' := by
      rintro rfl
      exact absurd hc (by decide)
    rw [← readMagnitude_append hm hrest]
    simp [readNumber, hminus]
  · simp [readNumber, readMagnitude_append hm hrest]

/-! ## Values -/

/-- What printing produces: escaped strings and keys, and numbers that can be read. -/
inductive Written : Json → Prop where
  | null : Written null
  | bool (b : Bool) : Written (bool b)
  | number {lexeme : List Char} (h : IsNumber lexeme) : Written (number lexeme)
  | string (s : List Char) : Written (string (escape s))
  | array {items : List Json} (h : ∀ j ∈ items, Written j) : Written (array items)
  | object {fields : List (List Char × Json)} (hkeys : ∀ f ∈ fields, ∃ s, f.1 = escape s)
      (hvalues : ∀ f ∈ fields, Written f.2) : Written (object fields)

@[simp] theorem skipBlank_indent (depth : Nat) (cs : List Char) :
    skipBlank (indent depth ++ cs) = skipBlank cs := by
  rw [skipBlank, List.dropWhile_append_of_pos]
  · rfl
  · intro c hc
    rcases List.mem_cons.1 hc with rfl | hc
    · rfl
    · rw [List.eq_of_mem_replicate hc]
      rfl

theorem skipBlank_cons {c : Char} (h : isBlank c = false) (cs : List Char) :
    skipBlank (c :: cs) = c :: cs := by
  rw [skipBlank, List.dropWhile_cons_of_neg (by simp [h])]

/-- Blanks before a value are skipped. -/
theorem readValue_congr {cs cs' : List Char} (h : skipBlank cs = skipBlank cs') (fuel : Nat) :
    readValue fuel cs = readValue fuel cs' := by
  cases fuel with
  | zero => rfl
  | succ fuel => rw [readValue, readValue, h]

theorem readItems_congr {cs cs' : List Char} (h : skipBlank cs = skipBlank cs') (fuel : Nat) :
    readItems fuel cs = readItems fuel cs' := by
  cases fuel with
  | zero => rfl
  | succ fuel => rw [readItems, readItems, readValue_congr h]

theorem readFields_congr {cs cs' : List Char} (h : skipBlank cs = skipBlank cs') (fuel : Nat) :
    readFields fuel cs = readFields fuel cs' := by
  cases fuel with
  | zero => rfl
  | succ fuel => rw [readFields, readFields, h]

/-- A number starts with a digit or a minus sign. -/
def Starts (c : Char) : Prop := isDigit c = true ∨ c = '-'

theorem Starts.ne {c d : Char} (h : Starts c) (hd : isDigit d = false) (hminus : d ≠ '-') :
    c ≠ d := by
  rintro rfl
  rcases h with h | h
  · simp [hd] at h
  · exact hminus h

theorem Starts.notBlank {c : Char} (h : Starts c) : isBlank c = false := by
  simp [isBlank, h.ne (d := ' '), h.ne (d := '\n'), h.ne (d := '\t'), h.ne (d := '\r'), isDigit]

theorem IsNumber.starts {cs : List Char} (h : IsNumber cs) :
    ∃ c rest, cs = c :: rest ∧ Starts c := by
  obtain ⟨m, hm, rfl | rfl⟩ := h
  · obtain ⟨c, rest, rfl, hc⟩ := hm.head
    exact ⟨c, rest, rfl, .inl hc⟩
  · exact ⟨'-', m, rfl, .inr rfl⟩

theorem readValue_number {cs rest : List Char} (h : IsNumber cs) (hrest : Ends rest) (fuel : Nat) :
    readValue (fuel + 1) (cs ++ rest) = some (number cs, rest) := by
  obtain ⟨c, ds, hcs, hc⟩ := h.starts
  have hread := readNumber_append h hrest
  rw [hcs, List.cons_append] at hread ⊢
  rw [readValue, skipBlank_cons hc.notBlank]
  simp [hread, hc.ne (d := 'n'), hc.ne (d := 't'), hc.ne (d := 'f'), hc.ne (d := '"'),
    hc.ne (d := '['), hc.ne (d := '\x7b'), isDigit]

theorem pretty_head {j : Json} (hj : Written j) (depth : Nat) :
    ∃ c cs, pretty depth j = c :: cs ∧ isBlank c = false ∧ c ≠ ']' := by
  cases hj with
  | null => exact ⟨'n', _, rfl, rfl, by decide⟩
  | bool b => cases b with
    | false => exact ⟨'f', _, rfl, rfl, by decide⟩
    | true => exact ⟨'t', _, rfl, rfl, by decide⟩
  | number h =>
    obtain ⟨c, cs, rfl, hc⟩ := h.starts
    exact ⟨c, cs, rfl, hc.notBlank, hc.ne rfl (by decide)⟩
  | string s => exact ⟨'"', _, rfl, rfl, by decide⟩
  | @array items h => cases items with
    | nil => exact ⟨'[', _, rfl, rfl, by decide⟩
    | cons j js => exact ⟨'[', _, rfl, rfl, by decide⟩
  | @object fields _ _ => cases fields with
    | nil => exact ⟨'\x7b', _, rfl, rfl, by decide⟩
    | cons f fs => exact ⟨'\x7b', _, rfl, rfl, by decide⟩

/-- What the three readers take with `fuel` steps: every text of at most that length. -/
structure Reads (fuel : Nat) : Prop where
  value : ∀ {j : Json} (depth : Nat) {rest : List Char}, Written j → Ends rest →
    (pretty depth j).length ≤ fuel → readValue fuel (pretty depth j ++ rest) = some (j, rest)
  items : ∀ {j : Json} {js : List Json} (depth outer : Nat) (rest : List Char),
    (∀ i ∈ j :: js, Written i) → (prettyItems depth (j :: js)).length ≤ fuel →
      readItems fuel (prettyItems depth (j :: js) ++ (indent outer ++ ']' :: rest)) =
        some (j :: js, rest)
  fields : ∀ {f : List Char × Json} {fs : List (List Char × Json)} (depth outer : Nat)
    (rest : List Char), (∀ g ∈ f :: fs, ∃ s, g.1 = escape s) → (∀ g ∈ f :: fs, Written g.2) →
      (prettyFields depth (f :: fs)).length ≤ fuel →
        readFields fuel (prettyFields depth (f :: fs) ++ (indent outer ++ '\x7d' :: rest)) =
          some (f :: fs, rest)

/-- An item is read in its place, after its line break. -/
theorem Reads.item {fuel : Nat} (h : Reads fuel) {j : Json} (depth : Nat) {rest : List Char}
    (hj : Written j) (hrest : Ends rest) (hlength : (pretty depth j).length ≤ fuel) :
    readValue fuel (indent depth ++ (pretty depth j ++ rest)) = some (j, rest) := by
  rw [readValue_congr (skipBlank_indent depth _)]
  exact h.value depth hj hrest hlength

theorem length_indent (depth : Nat) : (indent depth).length = 2 * depth + 1 := by
  simp [indent]

theorem ends_indent (depth : Nat) (rest : List Char) : Ends (indent depth ++ rest) :=
  ends_newline _

theorem readItems_step {fuel : Nat} (h : Reads fuel) {j : Json} {js : List Json}
    (depth outer : Nat) (rest : List Char) (hjs : ∀ i ∈ j :: js, Written i)
    (hlength : (prettyItems depth (j :: js)).length ≤ fuel + 1) :
    readItems (fuel + 1) (prettyItems depth (j :: js) ++ (indent outer ++ ']' :: rest)) =
      some (j :: js, rest) := by
  have hj := hjs j List.mem_cons_self
  cases js with
  | nil =>
    rw [prettyItems, List.length_append, length_indent] at hlength
    have hread := h.item depth hj (ends_indent outer (']' :: rest)) (by omega)
    simp [prettyItems, readItems, hread, skipBlank_cons (c := ']') rfl]
  | cons k js =>
    have hks : ∀ i ∈ k :: js, Written i := fun i hi => hjs i (List.mem_cons_of_mem _ hi)
    simp only [prettyItems, List.length_append, List.length_singleton, length_indent] at hlength
    have hread := h.item depth hj
      (ends_comma (prettyItems depth (k :: js) ++ (indent outer ++ ']' :: rest))) (by omega)
    have htail := h.items depth outer rest hks (by omega)
    simp [prettyItems, readItems, hread, skipBlank_cons (c := ',') rfl, htail]

theorem readFields_step {fuel : Nat} (h : Reads fuel) {f : List Char × Json}
    {fs : List (List Char × Json)} (depth outer : Nat) (rest : List Char)
    (hkeys : ∀ g ∈ f :: fs, ∃ s, g.1 = escape s) (hvalues : ∀ g ∈ f :: fs, Written g.2)
    (hlength : (prettyFields depth (f :: fs)).length ≤ fuel + 1) :
    readFields (fuel + 1) (prettyFields depth (f :: fs) ++ (indent outer ++ '\x7d' :: rest)) =
      some (f :: fs, rest) := by
  obtain ⟨k, v⟩ := f
  obtain ⟨s, rfl⟩ : ∃ s, k = escape s := hkeys (k, v) List.mem_cons_self
  have hv : Written v := hvalues _ List.mem_cons_self
  -- the blank after the colon
  have hvalue {rest : List Char} (hrest : Ends rest) (hlength : (pretty depth v).length ≤ fuel) :
      readValue fuel (' ' :: (pretty depth v ++ rest)) = some (v, rest) := by
    have hskip : skipBlank (' ' :: (pretty depth v ++ rest)) = skipBlank (pretty depth v ++ rest) :=
      rfl
    rw [readValue_congr hskip]
    exact h.value depth hv hrest hlength
  cases fs with
  | nil =>
    simp only [prettyFields, List.length_append, length_indent] at hlength
    have hread := hvalue (ends_indent outer ('\x7d' :: rest)) (by omega)
    simp [prettyFields, readFields, quote, readRaw_escape, skipBlank_cons (c := '"') rfl,
      skipBlank_cons (c := ':') rfl, skipBlank_cons (c := '\x7d') rfl, hread]
  | cons g gs =>
    simp only [prettyFields, List.length_append, List.length_singleton, length_indent] at hlength
    have hread := hvalue
      (ends_comma (prettyFields depth (g :: gs) ++ (indent outer ++ '\x7d' :: rest))) (by omega)
    have htail := h.fields depth outer rest
      (fun i hi => hkeys i (List.mem_cons_of_mem _ hi))
      (fun i hi => hvalues i (List.mem_cons_of_mem _ hi)) (by omega)
    simp [prettyFields, readFields, quote, readRaw_escape, skipBlank_cons (c := '"') rfl,
      skipBlank_cons (c := ':') rfl, skipBlank_cons (c := ',') rfl, hread, htail]

/-- The items of an array start on their own line, and not with its end. -/
theorem prettyItems_head {j : Json} (hj : Written j) (js : List Json) (depth : Nat)
    (rest : List Char) : ∃ c cs, skipBlank (prettyItems depth (j :: js) ++ rest) = c :: cs ∧
      isBlank c = false ∧ c ≠ ']' := by
  obtain ⟨c, cs, hc, hblank, hne⟩ := pretty_head hj depth
  cases js with
  | nil => exact ⟨c, cs ++ rest, by simp [prettyItems, hc, skipBlank_cons hblank], hblank, hne⟩
  | cons k js =>
    exact ⟨c, cs ++ ',' :: (prettyItems depth (k :: js) ++ rest),
      by simp [prettyItems, hc, skipBlank_cons hblank], hblank, hne⟩

theorem prettyFields_head (f : List Char × Json) (fs : List (List Char × Json)) (depth : Nat)
    (rest : List Char) : ∃ cs, skipBlank (prettyFields depth (f :: fs) ++ rest) = '"' :: cs := by
  obtain ⟨k, v⟩ := f
  cases fs with
  | nil =>
    simp only [prettyFields, List.append_assoc, skipBlank_indent]
    exact ⟨_, rfl⟩
  | cons g gs =>
    simp only [prettyFields, List.append_assoc, skipBlank_indent]
    exact ⟨_, rfl⟩

theorem readValue_step {fuel : Nat} (h : Reads fuel) {j : Json} (depth : Nat) {rest : List Char}
    (hj : Written j) (hrest : Ends rest) (hlength : (pretty depth j).length ≤ fuel + 1) :
    readValue (fuel + 1) (pretty depth j ++ rest) = some (j, rest) := by
  cases hj with
  | null => simp [pretty, readValue, skipBlank_cons (c := 'n') rfl, readWord]
  | bool b => cases b with
    | false => simp [pretty, readValue, skipBlank_cons (c := 'f') rfl, readWord]
    | true => simp [pretty, readValue, skipBlank_cons (c := 't') rfl, readWord]
  | number hnumber => exact readValue_number hnumber hrest fuel
  | string s => simp [pretty, readValue, quote, skipBlank_cons (c := '"') rfl, readRaw_escape]
  | @array items hitems => cases items with
    | nil => simp [pretty, readValue, skipBlank_cons (c := '[') rfl, skipBlank_cons (c := ']') rfl]
    | cons i is =>
      simp only [pretty, List.length_append, List.length_cons, List.length_nil] at hlength
      have htail := h.items (depth + 1) depth rest hitems (by omega)
      obtain ⟨c, cs, hskip, hblank, hne⟩ := prettyItems_head (hitems i List.mem_cons_self) is
        (depth + 1) (indent depth ++ ']' :: rest)
      have hcongr := readItems_congr (hskip.trans (skipBlank_cons hblank cs).symm) fuel
      rw [hcongr] at htail
      simp [pretty, readValue, skipBlank_cons (c := '[') rfl, hskip, hne, htail]
  | @object fields hkeys hvalues => cases fields with
    | nil =>
      simp [pretty, readValue, skipBlank_cons (c := '\x7b') rfl, skipBlank_cons (c := '\x7d') rfl]
    | cons f fs =>
      simp only [pretty, List.length_append, List.length_cons, List.length_nil] at hlength
      have htail := h.fields (depth + 1) depth rest hkeys hvalues (by omega)
      obtain ⟨cs, hskip⟩ := prettyFields_head f fs (depth + 1) (indent depth ++ '\x7d' :: rest)
      have hcongr := readFields_congr (hskip.trans (skipBlank_cons rfl cs).symm) fuel
      rw [hcongr] at htail
      simp [pretty, readValue, skipBlank_cons (c := '\x7b') rfl, hskip, htail]

theorem reads (fuel : Nat) : Reads fuel := by
  induction fuel with
  | zero =>
    refine ⟨?_, ?_, ?_⟩
    · intro j depth rest hj _ hlength
      obtain ⟨c, cs, hc, -⟩ := pretty_head hj depth
      simp [hc] at hlength
    · intro j js depth outer rest _ hlength
      cases js <;> simp [prettyItems, length_indent] at hlength
    · intro f fs depth outer rest _ _ hlength
      cases fs <;> simp [prettyFields, length_indent] at hlength
  | succ fuel ih => exact ⟨readValue_step ih, readItems_step ih, readFields_step ih⟩

/-- A tree is read back from its text. -/
theorem ofText?_pretty {j : Json} (hj : Written j) :
    ofText? (String.ofList (pretty 0 j)) = some j := by
  have hread := (reads ((pretty 0 j).length + 1)).value 0 hj ends_nil (by omega)
  rw [List.append_nil] at hread
  simp [ofText?, hread, skipBlank]

end TensorCompiler.Json
