import MetricUpload.Proofs.Json.NumeralReading
import MetricUpload.Proofs.Reply.Notation

namespace MetricUpload

namespace Reply

section

variable (fuel : Nat) (before : Json.Blanks) (cs : List Char)

theorem skipBlanks_append : skipBlanks (before.chars ++ cs) = skipBlanks cs :=
  List.dropWhile_append_of_pos before.blank

theorem skipBlanks_delimiter {c : Char} (h : Json.isBlank c = false) :
    skipBlanks (before.chars ++ c :: cs) = c :: cs := by
  rw [skipBlanks_append]
  exact List.dropWhile_cons_of_neg (by rw [h]; exact Bool.false_ne_true)

theorem value?_blanks : value? fuel (before.chars ++ cs) = value? fuel cs := by
  cases fuel with
  | zero => rfl
  | succ fuel => simp only [value?, skipBlanks_append]

end

/-- No numeral goes on behind blanks. -/
theorem stops_blanks (after : Json.Blanks) {rest : List Char} (h : Stops isNumeralChar rest) :
    Stops isNumeralChar (after.chars ++ rest) := by
  obtain ⟨chars, blank⟩ := after
  cases chars with
  | nil => exact h
  | cons b bs =>
    have hb := blank b List.mem_cons_self
    simp only [Json.isBlank, Bool.or_eq_true, beq_iff_eq] at hb
    rcases hb with ((rfl | rfl) | rfl) | rfl <;> exact stops_cons rfl _

theorem isNumeralChar_of_isDigit {c : Char} (h : c.isDigit = true) : isNumeralChar c = true := by
  simp only [isNumeralChar, h, Bool.true_or]

theorem isNumeralChar_of_mem (s : Decimal.Spelling) : ∀ c ∈ s.chars, isNumeralChar c = true := by
  have hfraction : ∀ c ∈ Decimal.fractionChars s.fraction, isNumeralChar c = true := by
    have hdigits := s.fractionDigits
    cases hf : s.fraction with
    | none => exact nofun
    | some digits =>
      rw [hf] at hdigits
      exact List.forall_mem_cons.mpr ⟨rfl, fun c hc => isNumeralChar_of_isDigit (hdigits c hc)⟩
  have hexponent : ∀ c ∈ Decimal.exponentChars s.exponent, isNumeralChar c = true := by
    cases s.exponent with
    | none => exact nofun
    | some e =>
      obtain ⟨upper, down, run⟩ := e
      have hmark : isNumeralChar (Json.ExponentPart.mk upper down run).mark = true := by
        cases upper <;> rfl
      have hsign : ∀ c ∈ (Json.ExponentPart.mk upper down run).signChars,
          isNumeralChar c = true := by
        rcases down with _ | _ | _
        · exact nofun
        · exact List.forall_mem_singleton.mpr rfl
        · exact List.forall_mem_singleton.mpr rfl
      exact List.forall_mem_cons.mpr ⟨hmark, List.forall_mem_append.mpr
        ⟨hsign, fun c hc => isNumeralChar_of_isDigit (run.digits c hc)⟩⟩
  have hmagnitude : ∀ c ∈ s.magnitudeChars, isNumeralChar c = true :=
    List.forall_mem_append.mpr ⟨fun c hc => isNumeralChar_of_isDigit (s.wholeDigits c hc),
      List.forall_mem_append.mpr ⟨hfraction, hexponent⟩⟩
  unfold Decimal.Spelling.chars
  split
  · exact List.forall_mem_cons.mpr ⟨rfl, hmagnitude⟩
  · exact hmagnitude

theorem spelling_head (s : Decimal.Spelling) :
    ∃ c cs, s.chars = c :: cs ∧ (c == '-' || c.isDigit) = true := by
  unfold Decimal.Spelling.chars
  cases hs : s.negative with
  | true => exact ⟨'-', _, rfl, rfl⟩
  | false =>
    obtain ⟨c, cs, hchars, hdigit⟩ := Decimal.Spelling.magnitudeChars_head hs
    exact ⟨c, cs, hchars, by rw [hdigit, Bool.or_true]⟩

theorem isBlank_of_begun {c : Char} (h : (c == '-' || c.isDigit) = true) :
    Json.isBlank c = false := by
  rw [Bool.or_eq_true, beq_iff_eq] at h
  rcases h with rfl | hdigit
  · rfl
  · exact Json.isBlank_of_isDigit hdigit

theorem value?_begun (fuel : Nat) {c : Char} (h : (c == '-' || c.isDigit) = true)
    (cs : List Char) : value? (fuel + 1) (c :: cs) = number? (c :: cs) := by
  have hblank : skipBlanks (c :: cs) = c :: cs :=
    List.dropWhile_cons_of_neg (by rw [isBlank_of_begun h]; exact Bool.false_ne_true)
  have hother : ∀ {d : Char} {ds : List Char}, c :: cs = d :: ds →
      (d == '-' || d.isDigit) = true := by
    intro d ds heq
    cases heq
    exact h
  simp only [value?, hblank]
  -- No other value begins like a numeral.
  split
  next heq => exact absurd (hother heq) (by decide)
  next heq => exact absurd (hother heq) (by decide)
  next heq => exact absurd (hother heq) (by decide)
  next heq => exact absurd (hother heq) (by decide)
  next heq => exact absurd (hother heq) (by decide)
  next heq => exact absurd (hother heq) (by decide)
  next => rfl

theorem value?_numeral (fuel : Nat) (s : Decimal.Spelling) {rest : List Char}
    (h : Stops isNumeralChar rest) :
    value? (fuel + 1) (s.chars ++ rest) = some (.number s.decimal, rest) := by
  obtain ⟨c, cs, hchars, hbegun⟩ := spelling_head s
  have htake := takeWhile_append_of_stops (isNumeralChar_of_mem s) h
  have hdrop := dropWhile_append_of_stops (isNumeralChar_of_mem s) h
  rw [hchars, List.cons_append] at htake hdrop ⊢
  rw [value?_begun fuel hbegun]
  simp only [number?, hbegun, ↓reduceIte, htake, hdrop]
  rw [← hchars, Decimal.ofChars?_chars, Option.map_some]

/-- A value begins with a character that is not blank and closes nothing. -/
theorem Written.head {v : Value} {text : List Char} (h : Written v text) :
    ∃ c cs, text = c :: cs ∧ Json.isBlank c = false ∧ c ≠ ']' := by
  cases h with
  | number s =>
    obtain ⟨c, cs, hchars, hbegun⟩ := spelling_head s
    refine ⟨c, cs, hchars, isBlank_of_begun hbegun, ?_⟩
    rintro rfl
    exact absurd hbegun (by decide)
  | _ => exact ⟨_, _, rfl, rfl, by decide⟩

theorem Written.length_pos {v : Value} {text : List Char} (h : Written v text) :
    0 < text.length := by
  obtain ⟨c, cs, rfl, _⟩ := h.head
  exact Nat.succ_pos _

theorem skipBlanks_items {items : List Value} {inside : List Char}
    (h : ItemsWritten items inside) (rest : List Char) :
    ∃ c cs, skipBlanks (inside ++ rest) = c :: cs ∧ c ≠ ']' := by
  have hfirst : ∃ (before : Json.Blanks) (c : Char) (cs : List Char),
      inside = before.chars ++ c :: cs ∧ Json.isBlank c = false ∧ c ≠ ']' := by
    cases h with
    | last before after h | more before after h =>
      obtain ⟨c, cs, rfl, hblank, hc⟩ := h.head
      exact ⟨before, c, _, rfl, hblank, hc⟩
  obtain ⟨before, c, cs, rfl, hblank, hc⟩ := hfirst
  refine ⟨c, cs ++ rest, ?_, hc⟩
  rw [List.append_assoc, List.cons_append, skipBlanks_delimiter _ _ hblank]

theorem skipBlanks_members {members : List (List Char × Value)} {inside : List Char}
    (h : MembersWritten members inside) (rest : List Char) :
    ∃ cs, skipBlanks (inside ++ rest) = '"' :: cs := by
  cases h with
  | last _ _ hk | more _ _ hk =>
    obtain ⟨_, before, after, rfl⟩ := hk
    simp only [List.append_assoc, List.cons_append]
    exact ⟨_, skipBlanks_delimiter before _ rfl⟩

section

variable {fuel : Nat} {cs behind next rest : List Char} {v : Value}

theorem value?_array {items : List Value} (hhead : ∃ c cs, skipBlanks next = c :: cs ∧ c ≠ ']')
    (h : items? fuel next = some (items, rest)) :
    value? (fuel + 1) ('[' :: next) = some (.array items, rest) := by
  obtain ⟨c, cs, hfirst, hc⟩ := hhead
  have hopened : skipBlanks ('[' :: next) = '[' :: next := rfl
  simp only [value?, hopened, hfirst]
  split
  next heq => exact absurd (List.cons.inj heq).1 hc
  next => rw [h, Option.map_some]

theorem value?_emptyArray (h : skipBlanks next = ']' :: rest) :
    value? (fuel + 1) ('[' :: next) = some (.array [], rest) := by
  have hopened : skipBlanks ('[' :: next) = '[' :: next := rfl
  simp only [value?, hopened, h]

theorem value?_object {members : List (List Char × Value)}
    (hhead : ∃ cs, skipBlanks next = '"' :: cs) (h : members? fuel next = some (members, rest)) :
    value? (fuel + 1) ('{' :: next) = some (.object members, rest) := by
  obtain ⟨cs, hfirst⟩ := hhead
  have hopened : skipBlanks ('{' :: next) = '{' :: next := rfl
  simp only [value?, hopened, hfirst, h, Option.map_some]
  rfl

theorem value?_emptyObject (h : skipBlanks next = '}' :: rest) :
    value? (fuel + 1) ('{' :: next) = some (.object [], rest) := by
  have hopened : skipBlanks ('{' :: next) = '{' :: next := rfl
  simp only [value?, hopened, h]

theorem items?_last (hv : value? fuel cs = some (v, behind)) (hb : skipBlanks behind = ']' :: rest) :
    items? (fuel + 1) cs = some ([v], rest) := by
  simp only [items?, hv, Option.bind_eq_bind, Option.bind_some, hb]

theorem items?_more {items : List Value} (hv : value? fuel cs = some (v, behind))
    (hb : skipBlanks behind = ',' :: next) (hs : items? fuel next = some (items, rest)) :
    items? (fuel + 1) cs = some (v :: items, rest) := by
  simp only [items?, hv, Option.bind_eq_bind, Option.bind_some, hb, hs]

theorem members?_last {raw inside behindKey : List Char} (hq : skipBlanks cs = '"' :: inside)
    (hk : rawString? inside = some (raw, behindKey)) (hc : skipBlanks behindKey = ':' :: next)
    (hv : value? fuel next = some (v, behind)) (hb : skipBlanks behind = '}' :: rest) :
    members? (fuel + 1) cs = some ([(raw, v)], rest) := by
  simp only [members?, hq, hk, hc, hv, Option.bind_eq_bind, Option.bind_some, hb]

theorem members?_more {raw inside behindKey following : List Char}
    {members : List (List Char × Value)} (hq : skipBlanks cs = '"' :: inside)
    (hk : rawString? inside = some (raw, behindKey)) (hc : skipBlanks behindKey = ':' :: next)
    (hv : value? fuel next = some (v, behind)) (hb : skipBlanks behind = ',' :: following)
    (hs : members? fuel following = some (members, rest)) :
    members? (fuel + 1) cs = some ((raw, v) :: members, rest) := by
  simp only [members?, hq, hk, hc, hv, Option.bind_eq_bind, Option.bind_some, hb, hs]

end

mutual

-- By recursion on the derivation. A numeral is taken as far as its characters go, so what follows a
-- value must not go on with one.
/-- A value is read as what it is, given fuel for its length. -/
theorem value?_of_written : ∀ {v : Value} {text : List Char}, Written v text →
    ∀ {fuel : Nat}, 2 * text.length ≤ fuel + 1 → ∀ {rest : List Char}, Stops isNumeralChar rest →
      value? (fuel + 1) (text ++ rest) = some (v, rest)
  | _, _, .null, _, _, _, _ => rfl
  | _, _, .isTrue, _, _, _, _ => rfl
  | _, _, .isFalse, _, _, _, _ => rfl
  | _, _, .number s, fuel, _, _, hr => value?_numeral fuel s hr
  | _, _, @Written.string raw h, fuel, _, rest, _ => by
    have hraw := rawString?_of_rawText h rest
    show ((rawString? ((raw ++ ['"']) ++ rest)).map fun (raw, rest) => (Value.string raw, rest)) = _
    rw [List.append_assoc, List.singleton_append, hraw, Option.map_some]
  | _, _, .emptyArray inner, _, _, rest, _ => by
    rw [List.cons_append, List.append_assoc]
    exact value?_emptyArray (skipBlanks_delimiter inner _ rfl)
  | _, _, .array h, fuel, hf, rest, _ => by
    simp only [List.length_cons, List.length_append] at hf
    obtain ⟨fuel, rfl⟩ : ∃ k, fuel = k + 1 := ⟨fuel - 1, by omega⟩
    rw [List.cons_append, List.append_assoc]
    exact value?_array (skipBlanks_items h _) (items?_of_written h (by omega) rest)
  | _, _, .emptyObject inner, _, _, rest, _ => by
    rw [List.cons_append, List.append_assoc]
    exact value?_emptyObject (skipBlanks_delimiter inner _ rfl)
  | _, _, .object h, fuel, hf, rest, _ => by
    simp only [List.length_cons, List.length_append] at hf
    obtain ⟨fuel, rfl⟩ : ∃ k, fuel = k + 1 := ⟨fuel - 1, by omega⟩
    rw [List.cons_append, List.append_assoc]
    exact value?_object (skipBlanks_members h _) (members?_of_written h (by omega) rest)

theorem items?_of_written : ∀ {items : List Value} {inside : List Char},
    ItemsWritten items inside → ∀ {fuel : Nat}, 2 * inside.length ≤ fuel → ∀ rest : List Char,
      items? (fuel + 1) (inside ++ ']' :: rest) = some (items, rest)
  | _, _, .last before after h, fuel, hf, rest => by
    have hpos := h.length_pos
    simp only [List.length_append] at hf
    obtain ⟨fuel, rfl⟩ : ∃ k, fuel = k + 1 := ⟨fuel - 1, by omega⟩
    simp only [List.append_assoc]
    refine items?_last ?_ (skipBlanks_delimiter after _ rfl)
    rw [value?_blanks]
    exact value?_of_written h (by omega) (stops_blanks after (stops_cons rfl _))
  | _, _, .more before after h hs, fuel, hf, rest => by
    have hpos := h.length_pos
    simp only [List.length_append, List.length_cons] at hf
    obtain ⟨fuel, rfl⟩ : ∃ k, fuel = k + 1 := ⟨fuel - 1, by omega⟩
    simp only [List.append_assoc, List.cons_append]
    refine items?_more ?_ (skipBlanks_delimiter after _ rfl) (items?_of_written hs (by omega) rest)
    rw [value?_blanks]
    exact value?_of_written h (by omega) (stops_blanks after (stops_cons rfl _))

theorem members?_of_written : ∀ {members : List (List Char × Value)} {inside : List Char},
    MembersWritten members inside → ∀ {fuel : Nat}, 2 * inside.length ≤ fuel →
      ∀ rest : List Char,
        members? (fuel + 1) (inside ++ '}' :: rest) = some (members, rest)
  | _, _, .last before after ⟨hk, outside, gap, heq⟩ h, fuel, hf, rest => by
    subst heq
    have hpos := h.length_pos
    simp only [List.length_append, List.length_cons] at hf
    obtain ⟨fuel, rfl⟩ : ∃ k, fuel = k + 1 := ⟨fuel - 1, by omega⟩
    simp only [List.append_assoc, List.cons_append]
    refine members?_last (skipBlanks_delimiter outside _ rfl) (rawString?_of_rawText hk _)
      (skipBlanks_delimiter gap _ rfl) ?_ (skipBlanks_delimiter after _ rfl)
    rw [value?_blanks]
    exact value?_of_written h (by omega) (stops_blanks after (stops_cons rfl _))
  | _, _, .more before after ⟨hk, outside, gap, heq⟩ h hs, fuel, hf, rest => by
    subst heq
    have hpos := h.length_pos
    simp only [List.length_append, List.length_cons] at hf
    obtain ⟨fuel, rfl⟩ : ∃ k, fuel = k + 1 := ⟨fuel - 1, by omega⟩
    simp only [List.append_assoc, List.cons_append]
    refine members?_more (skipBlanks_delimiter outside _ rfl) (rawString?_of_rawText hk _)
      (skipBlanks_delimiter gap _ rfl) ?_ (skipBlanks_delimiter after _ rfl)
      (members?_of_written hs (by omega) rest)
    rw [value?_blanks]
    exact value?_of_written h (by omega) (stops_blanks after (stops_cons rfl _))

end

/-- A text is read as the value that it is a text of, and no other text is read. -/
theorem ofChars?_eq_some_iff {cs : List Char} {v : Value} :
    Value.ofChars? cs = some v ↔ ∃ (before : Json.Blanks) (text : List Char) (after : Json.Blanks),
      cs = before.chars ++ (text ++ after.chars) ∧ Written v text := by
  unfold Value.ofChars?
  constructor
  · intro h
    obtain ⟨⟨v, rest⟩, hv, hend⟩ := Option.bind_eq_some_iff.mp h
    obtain ⟨before, text, rfl, hwritten⟩ := written_of_value? _ hv
    obtain ⟨after, hafter⟩ := exists_blanks rest
    dsimp only at hend
    split at hend
    next hempty =>
      cases hend
      rw [List.isEmpty_iff.mp hempty, List.append_nil] at hafter
      exact ⟨before, text, after, by rw [← hafter], hwritten⟩
    next => cases hend
  · rintro ⟨before, text, after, rfl, hwritten⟩
    have hends : Stops isNumeralChar after.chars := by
      have h := stops_blanks after stops_nil
      rwa [List.append_nil] at h
    have hfuel : 2 * text.length ≤ 2 * (before.chars ++ (text ++ after.chars)).length + 1 + 1 := by
      simp only [List.length_append]
      omega
    have hempty : skipBlanks after.chars = [] := by
      rw [← List.append_nil after.chars, skipBlanks_append]
      rfl
    rw [value?_blanks, value?_of_written hwritten hfuel hends]
    simp only [Option.bind_eq_bind, Option.bind_some, hempty, List.isEmpty_nil, ↓reduceIte]

end Reply

end MetricUpload
