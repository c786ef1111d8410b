import OData.Multipart.Reader
import OData.Proofs.Text.Encoding
import OData.Proofs.Text.Lines

/-!
# Lines of a body, from bytes

The reader cuts bytes at line feeds and decodes each piece. Two kinds of bodies are given here
together with the lines that it finds in them: bytes that were written line by line, each line with
an ending of its own (`texts_of_written`), and an encoded text (`texts_of_encoded`).
-/

set_option autoImplicit false

namespace OData.Text.Utf8

/-! ## Cutting encoded text -/

theorem segments_encode (s : List Char) :
    segments (· == 0x0A) (encode s) = (segments (· == '\n') s).map encode := by
  induction s with
  | nil => rfl
  | cons c s ih =>
    by_cases hc : c = '\n'
    · have he : encode (c :: s) = 0x0A :: encode s := by rw [hc]; rfl
      have hl : encode [c] = [0x0A] := by rw [hc]; rfl
      rw [he, segments, if_pos (beq_self_eq_true _), segments, if_pos (beq_iff_eq.mpr hc), ih,
        List.map_cons, hl]
    · -- No byte of another character is cut at, so all its bytes join the first piece.
      have hfeed : (0x0A : UInt8) ∉ encodeChar c := not_mem_encodeChar rfl (by decide) hc
      have hb : ∀ b ∈ encodeChar c, (b == (0x0A : UInt8)) = false := by
        intro b hb
        refine beq_false_of_ne ?_
        rintro rfl
        exact hfeed hb
      rw [encode_cons, segments_append_of_not _ hb (encodeChar_ne_nil c), ih]
      simp only [segments, beq_false_of_ne hc, Bool.false_eq_true, if_false]
      cases segments (· == '\n') s with
      | nil => simp [encode]
      | cons p ps => simp [encode_cons]

theorem getLast?_encode {s : List Char} {d : Char} {b : UInt8} (hb : b.toNat = d.toNat)
    (hd : d.toNat < 0x80) (h : (encode s).getLast? = some b) : s.getLast? = some d := by
  rcases List.eq_nil_or_concat s with rfl | ⟨r, c, rfl⟩
  · cases h
  · rw [List.concat_eq_append] at h ⊢
    have he : encode (r ++ [c]) = encode r ++ encodeChar c := by simp [encode]
    rw [he, List.getLast?_append, List.getLast?_eq_some_getLast (encodeChar_ne_nil c),
      Option.some_or] at h
    by_cases hc : c = d
    · rw [hc, List.getLast?_concat]
    · exact absurd (Option.some.inj h ▸ List.getLast_mem _) (not_mem_encodeChar hb hd hc)

theorem dropLastIf_encode (s : List Char) :
    dropLastIf 0x0D (encode s) = encode (dropLastIf '\r' s) := by
  unfold dropLastIf
  by_cases h : s.getLast? = some '\r'
  · obtain ⟨r, rfl⟩ := List.getLast?_eq_some_iff.mp h
    have he : encode (r ++ ['\r']) = encode r ++ [0x0D] := encode_append r ['\r']
    rw [he, List.getLast?_concat, if_pos rfl, if_pos h, List.dropLast_concat, List.dropLast_concat]
  · rw [if_neg h, if_neg fun he => h (getLast?_encode rfl (by decide) he)]

end OData.Text.Utf8

namespace OData.Multipart

open OData.Text

/-! ## Lines written one by one -/

/-- A line as a body holds it, with an ending of its own: a line feed, or a carriage return and a
line feed. -/
structure WrittenLine where
  bytes : List UInt8
  crlf : Bool
  noFeed : (0x0A : UInt8) ∉ bytes
  /-- A carriage return at the end would be part of an ending that is a line feed alone. -/
  plain : crlf = false → bytes.getLast? ≠ some 0x0D

namespace WrittenLine

def text (l : WrittenLine) : List Char := Utf8.lossy l.bytes

def withEnding (l : WrittenLine) : List UInt8 :=
  l.bytes ++ if l.crlf then [0x0D, 0x0A] else [0x0A]

def body (ls : List WrittenLine) : List UInt8 := ls.flatMap withEnding

/-- A text without line feeds that does not end with a carriage return can be written with either
ending. -/
def ofText (t : List Char) (crlf : Bool) (hf : '\n' ∉ t) (hr : t.getLast? ≠ some '\r') :
    WrittenLine where
  bytes := Utf8.encode t
  crlf := crlf
  noFeed := by
    intro h
    obtain ⟨c, hc, hb⟩ := List.mem_flatMap.mp h
    have hn : c ≠ '\n' := by
      rintro rfl
      exact hf hc
    exact Utf8.not_mem_encodeChar (d := '\n') rfl (by decide) hn hb
  plain := by
    intro _ h
    exact hr (Utf8.getLast?_encode rfl (by decide) h)

@[simp] theorem text_ofText (t : List Char) (crlf : Bool) (hf : '\n' ∉ t)
    (hr : t.getLast? ≠ some '\r') : (ofText t crlf hf hr).text = t :=
  Utf8.lossy_encode t

theorem text_ofBytes (l : WrittenLine) : (Line.ofBytes l.withEnding).text = l.text := by
  obtain ⟨bytes, crlf, -, plain⟩ := l
  cases crlf with
  | true =>
    have h : bytes ++ [0x0D, 0x0A] = bytes ++ [0x0D] ++ [(0x0A : UInt8)] := by simp
    simp [Line.ofBytes, withEnding, text, h, dropLastIf, -List.append_assoc]
  | false =>
    simp [Line.ofBytes, withEnding, text, dropLastIf, plain rfl]

theorem segments_withEnding (l : WrittenLine) (r : List UInt8) :
    segments (· == 0x0A) (l.withEnding ++ r) = l.withEnding :: segments (· == 0x0A) r := by
  obtain ⟨bytes, crlf, noFeed, -⟩ := l
  have hb : ∀ b ∈ bytes, (b == (0x0A : UInt8)) = false := by
    intro b hb
    refine beq_false_of_ne ?_
    rintro rfl
    exact noFeed hb
  cases crlf with
  | true =>
    have hr : ∀ b ∈ bytes ++ [0x0D], (b == (0x0A : UInt8)) = false := by
      intro b h
      rcases List.mem_append.mp h with h | h
      · exact hb b h
      · rw [List.mem_singleton.mp h]
        rfl
    have := segments_append_end r hr (e := 0x0A) rfl
    simpa [withEnding] using this
  | false =>
    have := segments_append_end r hb (e := 0x0A) rfl
    simpa [withEnding] using this

end WrittenLine

/-- **A body written line by line is read line by line**, whatever the endings are. -/
theorem texts_of_written (ls : List WrittenLine) (r : List UInt8) :
    (linesOf (WrittenLine.body ls ++ r) false).map Line.text =
      ls.map WrittenLine.text ++ (linesOf r false).map Line.text := by
  induction ls with
  | nil => rfl
  | cons l ls ih =>
    simp only [linesOf, Bool.false_eq_true, if_false, List.map_map] at ih ⊢
    rw [WrittenLine.body, List.flatMap_cons, List.append_assoc, l.segments_withEnding,
      List.map_cons, List.map_cons, List.cons_append]
    exact List.cons_eq_cons.mpr ⟨l.text_ofBytes, ih⟩

/-! ## Encoded text -/

theorem text_ofBytes_encode (q : List Char) :
    (Line.ofBytes (Utf8.encode (q ++ ['\n']))).text = withoutEnding (q ++ ['\n']) := by
  have he : Utf8.encode (q ++ ['\n']) = Utf8.encode q ++ [0x0A] := Utf8.encode_append q ['\n']
  have hd : dropLastIf 0x0A (Utf8.encode q ++ [0x0A]) = Utf8.encode q := by simp [dropLastIf]
  rw [Line.ofBytes, he, hd, Utf8.dropLastIf_encode, Utf8.lossy_encode, withoutEnding,
    List.getLast?_concat, if_pos rfl, List.dropLast_concat]

/-- **The lines of an encoded text are the lines of the text**, if it ends with a line feed. -/
theorem texts_of_encoded (s : List Char) :
    (linesOf (Utf8.encode (s ++ ['\n'])) false).map Line.text = lines (s ++ ['\n']) := by
  simp only [linesOf, Bool.false_eq_true, if_false, List.map_map, Utf8.segments_encode,
    lines_eq_map]
  refine List.map_congr_left ?_
  intro p hp
  -- Every piece of such a text has its line feed, the last one too.
  obtain ⟨q, d, rfl, hd⟩ := getLast?_of_mem_segments rfl hp
  rw [eq_of_beq hd]
  exact text_ofBytes_encode q

end OData.Multipart
