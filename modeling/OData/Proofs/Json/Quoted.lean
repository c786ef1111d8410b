import OData.Json.Printer
import OData.Proofs.Json.Nest
import OData.Proofs.Text.Encoding

/-!
# Strings that are written are read back

A string is written with escapes for quotes, backslashes and control characters. **Read byte by byte,
what stands between its quotes is the string again** (`Quotation.text?_of_quoted`), and a machine
that passes over a string gets to the same place (`Quotation.feed?_skimmed`).
-/

set_option autoImplicit false

namespace OData.Json.Quotation

open OData.Text OData.Text.Utf8

/-- The string under way, if it goes on. -/
def Next.more? : Next → Option Quotation
  | .more q => some q
  | .done _ | .malformed => none

theorem eq_more_of_more? {next : Next} {q : Quotation} (h : next.more? = some q) :
    next = .more q := by
  cases next with
  | more => exact congrArg Next.more (Option.some.inj h)
  | done => cases h
  | malformed => cases h

/-- A string under way after some more bytes, if it goes on all the time. -/
def feed? (keep : Bool) (q : Quotation) (bytes : List UInt8) : Option Quotation :=
  bytes.foldlM (fun q byte => (q.step keep byte).more?) q

theorem feed?_cons (keep : Bool) (q : Quotation) (byte : UInt8) (bytes : List UInt8) :
    feed? keep q (byte :: bytes) = (q.step keep byte).more?.bind fun q => feed? keep q bytes :=
  List.foldlM_cons

theorem feed?_more {keep : Bool} {q q' : Quotation} {byte : UInt8}
    (h : q.step keep byte = .more q') (bytes : List UInt8) :
    feed? keep q (byte :: bytes) = feed? keep q' bytes := by
  rw [feed?_cons, h]
  rfl

theorem feed?_append (keep : Bool) (q : Quotation) (first more : List UInt8) :
    feed? keep q (first ++ more) = (feed? keep q first).bind fun q => feed? keep q more :=
  List.foldlM_append

/-- What is kept to the end is passed over to the end. -/
theorem feed?_skimmed {p p' q : Quotation} {bytes : List UInt8}
    (h : feed? true p bytes = some p') (hq : Skims p.stage q.stage) :
    ∃ q', feed? false q bytes = some q' ∧ Skims p'.stage q'.stage := by
  induction bytes generalizing p q with
  | nil =>
    cases h
    exact ⟨q, rfl, hq⟩
  | cons byte bytes ih =>
    rw [feed?_cons] at h
    rw [feed?_cons]
    have hstep := hq.step byte
    generalize p.step true byte = np at h hstep
    generalize q.step false byte = nq at hstep
    cases hstep with
    | more hskims => exact ih h hskims
    | done => cases h
    | malformed => cases h

/-- Bytes that are neither quotes, backslashes nor control characters stand for themselves. -/
theorem feed?_plain (acc bytes : List UInt8)
    (h : ∀ b ∈ bytes, 0x20 ≤ b.toNat ∧ b.toNat ≠ 0x22 ∧ b.toNat ≠ 0x5C) :
    feed? true ⟨.plain, acc⟩ bytes = some ⟨.plain, bytes.reverse ++ acc⟩ := by
  induction bytes generalizing acc with
  | nil => rfl
  | cons byte bytes ih =>
    obtain ⟨hlow, hquote, hslash⟩ := h byte List.mem_cons_self
    have hstep : step true ⟨.plain, acc⟩ byte = .more ⟨.plain, byte :: acc⟩ := by
      unfold step
      dsimp only
      rw [if_neg hquote, if_neg hslash, if_neg (Nat.not_lt.mpr hlow)]
    rw [feed?_more hstep, List.reverse_cons, List.append_assoc]
    exact ih _ fun b hb => h b (List.mem_cons_of_mem _ hb)

/-- Four hexadecimal digits stand for a character of the basic plane. -/
theorem feed?_hex (acc : List UInt8) {a b c d : UInt8} {n : Nat}
    (h : hexValue? [a.toNat, b.toNat, c.toNat, d.toNat] = some n) (hn : n < 0xD800) :
    feed? true ⟨.hex [] none, acc⟩ [a, b, c, d] =
      some ⟨.plain, (encodeChar (Char.ofNat n)).reverse ++ acc⟩ := by
  have hread : hexValue? [d.toNat, c.toNat, b.toNat, a.toNat].reverse = some n := h
  have hlast : step true ⟨.hex [c.toNat, b.toNat, a.toNat] none, acc⟩ d =
      .more ⟨.plain, (encodeChar (Char.ofNat n)).reverse ++ acc⟩ := by
    unfold step
    dsimp only [List.length_cons, List.length_nil]
    rw [if_neg (by decide), hread]
    dsimp only
    rw [if_pos rfl, unit, if_neg (by omega), if_neg (by omega), push]
  calc feed? true ⟨.hex [] none, acc⟩ [a, b, c, d]
      = feed? true ⟨.hex [a.toNat] none, acc⟩ [b, c, d] := feed?_more rfl _
    _ = feed? true ⟨.hex [b.toNat, a.toNat] none, acc⟩ [c, d] := feed?_more rfl _
    _ = feed? true ⟨.hex [c.toNat, b.toNat, a.toNat] none, acc⟩ [d] := feed?_more rfl _
    _ = some ⟨.plain, (encodeChar (Char.ofNat n)).reverse ++ acc⟩ := feed?_more hlast []

theorem encode_hexFixed (n : Nat) : ∃ a b c d, encode (Hex.fixed 4 n) = [a, b, c, d] := by
  have hdigit : ∀ k, ∃ a, encodeChar (Hex.lowerDigit k) = [a] := by
    intro k
    have hall : ∀ k < 16, (Hex.lowerDigit k).toNat < 0x80 := by decide
    refine ⟨_, encodeChar_of_lt ?_⟩
    rw [← Hex.lowerDigit_mod]
    exact hall _ (Nat.mod_lt k (by decide))
  obtain ⟨a, ha⟩ := hdigit (n / 16 / 16 / 16)
  obtain ⟨b, hb⟩ := hdigit (n / 16 / 16)
  obtain ⟨c, hc⟩ := hdigit (n / 16)
  obtain ⟨d, hd⟩ := hdigit n
  refine ⟨a, b, c, d, ?_⟩
  show encode [_, _, _, _] = _
  rw [encode_cons, encode_cons, encode_cons, encode_cons, ha, hb, hc, hd]
  rfl

/-- A control character without a short escape is written as four hexadecimal digits. -/
theorem feed?_control (acc : List UInt8) {c : Char} (h : c.toNat < 0x20) :
    feed? true ⟨.plain, acc⟩ (encode ('\\' :: 'u' :: Hex.fixed 4 c.toNat)) =
      some ⟨.plain, (encodeChar c).reverse ++ acc⟩ := by
  have hall : ∀ n < 0x20, hexValue? ((encode (Hex.fixed 4 n)).map UInt8.toNat) = some n := by
    decide
  obtain ⟨a, b, d, e, hdigits⟩ := encode_hexFixed c.toNat
  have hvalue := hall c.toNat h
  rw [hdigits] at hvalue
  rw [encode_cons, encode_cons, hdigits]
  calc feed? true ⟨.plain, acc⟩ (0x5C :: 0x75 :: [a, b, d, e])
      = feed? true ⟨.escape, acc⟩ (0x75 :: [a, b, d, e]) := feed?_more rfl _
    _ = feed? true ⟨.hex [] none, acc⟩ [a, b, d, e] := feed?_more rfl _
    _ = some ⟨.plain, (encodeChar (Char.ofNat c.toNat)).reverse ++ acc⟩ :=
      feed?_hex acc hvalue (by omega)
    _ = some ⟨.plain, (encodeChar c).reverse ++ acc⟩ := by rw [Char.ofNat_toNat]

/-- A character as it is written is that character. -/
theorem feed?_escapedChar (acc : List UInt8) (c : Char) :
    feed? true ⟨.plain, acc⟩ (encode (escapedChar c)) =
      some ⟨.plain, (encodeChar c).reverse ++ acc⟩ := by
  unfold escapedChar
  split
  · next h => subst h; rfl
  split
  · next h => subst h; rfl
  split
  · next h => subst h; rfl
  split
  · next h => subst h; rfl
  split
  · next h => subst h; rfl
  split
  · next h => subst h; rfl
  split
  · next h => subst h; rfl
  split
  · next h => exact feed?_control acc h
  · next hquote hslash _ _ _ _ _ hlow =>
    have hbytes : encode [c] = encodeChar c := List.append_nil _
    rw [hbytes]
    refine feed?_plain acc (encodeChar c) ?_
    intro b hb
    by_cases hascii : b.toNat < 0x80
    · have hc := eq_of_mem_encodeChar hascii hb
      refine ⟨by omega, ?_, ?_⟩
      · intro h
        exact not_mem_encodeChar (d := '"') h (by decide) hquote hb
      · intro h
        exact not_mem_encodeChar (d := '\\') h (by decide) hslash hb
    · omega

theorem feed?_escaped (acc : List UInt8) (s : List Char) :
    feed? true ⟨.plain, acc⟩ (encode (s.flatMap escapedChar)) =
      some ⟨.plain, (encode s).reverse ++ acc⟩ := by
  induction s generalizing acc with
  | nil => rfl
  | cons c s ih =>
    rw [List.flatMap_cons, encode_append, feed?_append, feed?_escapedChar, Option.bind_some, ih,
      encode_cons, List.reverse_append, List.append_assoc]

/-- **The bytes between the quotes of a string that is written are taken for that string.** -/
theorem text?_of_quoted (s : String) :
    feed? true {} (encode (s.toList.flatMap escapedChar)) =
        some ⟨.plain, (encode s.toList).reverse⟩ ∧
      text? (encode s.toList) = some s := by
  constructor
  · rw [← List.append_nil (encode s.toList).reverse]
    exact feed?_escaped [] s.toList
  · rw [text?, decode?_encode, Option.map_some, String.ofList_toList]

end OData.Json.Quotation
