import OData.Literal
import OData.Proofs.MediaType
import OData.Proofs.Text.Quotes
import OData.Proofs.Text.Trim

/-!
# Quotes in literals

A literal is written without commas and quotes, or with a quoted text in it: a word of the older
version of the protocol and the value between quotes, or a text whose own quotes are doubled. In
each case **commas are quoted and no quote is left open** (`Literal.sealed_chars`). Decimal numbers
and expressions are the texts of the caller and may hold anything.
-/

set_option autoImplicit false

namespace OData

open OData.Text OData.Ieee

/-! ## Numbers -/

namespace Text

@[simp] theorem bare_replicate {n : Nat} : Bare (List.replicate n '0') := by
  intro c hc
  rw [List.eq_of_mem_replicate hc]
  decide

@[simp] theorem bare_digits (n : Nat) : Bare (digits n) := by
  have hall : Bare "0123456789".toList := by decide
  intro c hc
  exact hall c (mem_digits hc)

@[simp] theorem bare_paddedDigits (width n : Nat) : Bare (paddedDigits width n) := by
  simp [paddedDigits]

@[simp] theorem bare_signedDigits (i : Int) : Bare (signedDigits i) := by
  unfold signedDigits
  split <;> simp

theorem Base64.bare_digit (n : Nat) : digit n ≠ ',' ∧ digit n ≠ '\'' := by
  have hall : ∀ k < 64, digit k ≠ ',' ∧ digit k ≠ '\'' := by decide
  have hmod : digit n = digit (n % 64) := by simp [digit]
  rw [hmod]
  exact hall _ (Nat.mod_lt n (by decide))

theorem Base64.bare_encode (bytes : List UInt8) : Bare (encode bytes) := by
  fun_induction encode bytes with
  | case1 => simp
  | case2 a => simp [bare_digit]
  | case3 a b => simp [bare_digit]
  | case4 a b c r n ih => simp [bare_digit, ih]

end Text

/-! ## Floating-point numbers -/

namespace Ieee

theorem bare_positional {ds : List Char} (h : Bare ds) (position : Int) :
    Bare (positional ds position) := by
  unfold positional
  split
  · simp [h]
  dsimp only
  split
  · simp [h]
  · simp [h.of_subset (List.take_subset _ _), h.of_subset (List.drop_subset _ _)]

theorem bare_scientific {ds : List Char} (h : Bare ds) (plus : Bool) (position : Int) :
    Bare (scientific plus ds position) := by
  have htake := h.of_subset (List.take_subset 1 ds)
  have htail := h.of_subset (List.tail_sublist ds).subset
  unfold scientific
  dsimp only
  split <;> split <;> simp [htake, htail]

/-- Digits, signs, points and exponents are all that a layout writes. -/
theorem Layout.bare_render (l : Layout) (negative : Bool) (mantissa : Nat) (exponent : Int)
    (wideBelow : Bool) : Bare (l.render negative mantissa exponent wideBelow) := by
  have hsign : Bare (if negative then ['-'] else []) := by cases negative <;> decide
  unfold Layout.render
  dsimp only
  split
  · simp [hsign]
  · refine bare_append.mpr ⟨hsign, ?_⟩
    split
    · exact bare_positional (bare_digits _) _
    · exact bare_scientific (bare_digits _) _ _

end Ieee

/-! ## Times -/

@[simp] theorem bare_fractionText (nanos : Nat) : Bare (fractionText nanos) := by
  have hdropped : Bare (dropEndWhile (· == '0') (paddedDigits 9 nanos)) :=
    (bare_paddedDigits 9 nanos).of_subset (List.rdropWhile_prefix _ _).subset
  unfold fractionText
  split
  · simp
  · simp [hdropped]

@[simp] theorem Date.bare_text (d : Date) : Bare d.text := by
  unfold Date.text paddedSigned
  split <;> simp

@[simp] theorem TimeOfDay.bare_text (t : TimeOfDay) : Bare t.text := by simp [TimeOfDay.text]

@[simp] theorem DateTime.bare_text (d : DateTime) : Bare d.text := by simp [DateTime.text]

@[simp] theorem Offset.bare_text (o : Offset) : Bare o.text := by
  unfold Offset.text
  split
  · decide
  · dsimp only
    split <;> simp

@[simp] theorem OffsetDateTime.bare_text (d : OffsetDateTime) : Bare d.text := by
  simp [OffsetDateTime.text]

/-- The form of a duration is letters and digits, with a point in it. -/
theorem Duration.bare_iso (d : Duration) : Bare d.iso.toList := by
  unfold Duration.iso
  split
  · decide
  · rw [String.toList_ofList, Duration.isoMagnitude]
    repeat' split
    all_goals simp

theorem Guid.bare_render (g : Guid) : Bare g.render.toList := by
  have hall : ∀ k < 16, Hex.lowerDigit k ≠ ',' ∧ Hex.lowerDigit k ≠ '\'' := by decide
  intro c hc
  rw [Guid.render, String.toList_ofList] at hc
  rcases mem_hyphenate hc with rfl | hc
  · decide
  · obtain ⟨k, rfl⟩ := (List.mem_append.mp hc).elim mem_fixed mem_fixed
    rw [← Hex.lowerDigit_mod]
    exact hall _ (Nat.mod_lt k (by decide))

/-! ## Literals -/

namespace Literal

/-- Whether a literal is a text of the caller that is written as it stands. -/
def isVerbatim : Literal → Bool
  | decimal _ | raw _ => true
  | _ => false

/-- A word, and a bare text between quotes behind it. -/
theorem sealed_marked {word : String} (hword : Bare word.toList) {body : List Char}
    (h : Bare body) : Sealed (marked word body) := by
  rw [marked, List.append_assoc]
  exact (Sealed.of_bare hword).append (.of_quoted h)

/-- Inside quotes, a text with its own quotes doubled stays inside. -/
theorem commasQuoted_doubled (s : List Char) {n : Nat} (hn : n % 2 = 1) :
    CommasQuoted n (s.flatMap fun c => if c = '\'' then ['\'', '\''] else [c]) := by
  induction s generalizing n with
  | nil => trivial
  | cons c s ih =>
    rw [List.flatMap_cons]
    by_cases hc : c = '\''
    · -- Two quotes more are an odd number again.
      have hodd : (n + 1 + 1) % 2 = 1 := by omega
      simp [hc, ih hodd]
    · simp [hc, hn, quotesAfter_of_ne hc, ih hn]

/-- Doubled quotes are an even number. -/
theorem count_doubled (s : List Char) :
    (s.flatMap fun c => if c = '\'' then ['\'', '\''] else [c]).count '\'' =
      2 * s.count '\'' := by
  induction s with
  | nil => rfl
  | cons c s ih =>
    rw [List.flatMap_cons, List.count_append, ih, List.count_cons]
    by_cases hc : c = '\''
    · simp only [hc, if_true, beq_self_eq_true, List.count_cons, List.count_nil]
      omega
    · simp [hc]

/-- A comma in a text is between the quotes around it, whatever quotes the text holds. -/
theorem sealed_quoted (s : List Char) : Sealed (quoted s) where
  commas n hn := by
    have hodd : (n + 1) % 2 = 1 := by omega
    have hinside := (commasQuoted_doubled s hodd).append (t := ['\'']) (by simp)
    simpa [quoted] using hinside
  closed := by
    rw [quoted, List.count_append, List.count_cons_self, count_doubled]
    simp only [List.count_singleton_self]
    omega

/-- Neither a number nor the name of a special value has commas or quotes. -/
theorem bare_floatText (p : Protocol) {mark : Char} (hmark : mark ≠ ',' ∧ mark ≠ '\'')
    (v : Value) : Bare (floatText p mark v) := by
  unfold floatText
  split
  · decide
  · decide
  · decide
  · refine bare_append.mpr ⟨Layout.bare_render _ _ _ _ _, ?_⟩
    cases p with
    | v2 => simpa using hmark
    | v4 => simp

/-- **The commas of a literal are quoted and its quotes are closed**, unless it is a text of the
caller. -/
theorem sealed_chars {l : Literal} (h : l.isVerbatim = false) (p : Protocol) :
    Sealed (l.chars p) := by
  cases l with
  | null => exact .of_bare (by simp [chars])
  | boolean b => cases b <;> exact .of_bare (by simp [chars])
  | int32 n => exact .of_bare (bare_signedDigits _)
  | int64 n => cases p <;> exact .of_bare (by simp [chars])
  | single bits => exact .of_bare (bare_floatText p (by decide) _)
  | double d => exact .of_bare (bare_floatText p (by decide) _)
  | decimal digits => cases h
  | text s => exact sealed_quoted _
  | guid g =>
    cases p with
    | v2 => exact sealed_marked (by decide) g.bare_render
    | v4 => exact .of_bare g.bare_render
  | binary bytes => exact sealed_marked (by decide) (Base64.bare_encode bytes)
  | date d =>
    cases p with
    | v2 => exact sealed_marked (by decide) (by simp)
    | v4 => exact .of_bare d.bare_text
  | timeOfDay t =>
    cases p with
    | v2 => exact sealed_marked (by decide) t.sinceMidnight.bare_iso
    | v4 => exact .of_bare t.bare_text
  | dateTime d =>
    cases p with
    | v2 => exact sealed_marked (by decide) d.bare_text
    | v4 => exact .of_bare (by simp [chars])
  | dateTimeOffset d =>
    cases p with
    | v2 => exact sealed_marked (by decide) d.bare_text
    | v4 => exact .of_bare d.bare_text
  | duration d => exact sealed_marked (by decide) d.bare_iso
  | raw expression => cases h

end Literal

end OData
