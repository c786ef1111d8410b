import OData.Parameters
import OData.Proofs.Literal.Quotes
import OData.Proofs.Percent
import OData.Proofs.Text.Pieces

/-!
# Parameter sets taken apart

The members of a set are written with delimiters that are not escaped, so what tells them apart is
that no member holds one. In a query, and everywhere in a batch, the delimiters are escaped inside
the members. In other paths a comma and an equals sign stand as they are; there a comma is told from
a delimiter by the quotes around the text that it is in. **Cut at its delimiters and decoded, a
written set gives the names and the literals that were put into it** (`members_of_render`).
-/

set_option autoImplicit false

namespace OData

open OData.Text

/-! ## Escaped texts -/

namespace Percent

variable {keep : Char → Bool}

theorem bare_escaped (bytes : List UInt8) : Bare (bytes.flatMap escapeByte) := by
  intro c hc
  obtain ⟨b, -, hc⟩ := List.mem_flatMap.mp hc
  simp only [escapeByte, List.mem_cons, List.not_mem_nil, or_false] at hc
  rcases hc with rfl | rfl | rfl
  · decide
  · exact ⟨upperDigit_ne (by decide) _, upperDigit_ne (by decide) _⟩
  · exact ⟨upperDigit_ne (by decide) _, upperDigit_ne (by decide) _⟩

theorem encode_cons_of_keep {c : Char} (h : keep c = true) (s : List Char) :
    encode keep (c :: s) = c :: encode keep s := by
  rw [encode, List.flatMap_cons, escapeChar, if_pos h]
  rfl

theorem encode_cons_of_not_keep {c : Char} (h : keep c = false) (s : List Char) :
    encode keep (c :: s) = (Utf8.encodeChar c).flatMap escapeByte ++ encode keep s := by
  rw [encode, List.flatMap_cons, escapeChar, if_neg (Bool.eq_false_iff.mp h)]
  rfl

theorem ne_of_not_keep {a c : Char} (ha : keep a = true) (hc : keep c = false) : c ≠ a := by
  rintro rfl
  rw [ha] at hc
  cases hc

theorem count_encode (hquote : keep '\'' = true) (s : List Char) :
    (encode keep s).count '\'' = s.count '\'' := by
  induction s with
  | nil => rfl
  | cons c s ih =>
    cases hc : keep c with
    | true => rw [encode_cons_of_keep hc, List.count_cons, List.count_cons, ih]
    | false =>
      rw [encode_cons_of_not_keep hc, List.count_append, (bare_escaped _).count, Nat.zero_add, ih,
        List.count_cons_of_ne (ne_of_not_keep hquote hc)]

theorem commasQuoted_encode (hquote : keep '\'' = true) {n : Nat} {s : List Char}
    (h : CommasQuoted n s) : CommasQuoted n (encode keep s) := by
  induction s generalizing n with
  | nil => exact h
  | cons c s ih =>
    obtain ⟨hcomma, hrest⟩ := h
    cases hc : keep c with
    | true =>
      rw [encode_cons_of_keep hc]
      exact ⟨hcomma, ih hrest⟩
    | false =>
      -- The quotes are kept, so this character is none, and no escape holds one.
      have hbare := bare_escaped (Utf8.encodeChar c)
      rw [encode_cons_of_not_keep hc]
      refine .append (.of_not_mem (fun hmem => (hbare _ hmem).1 rfl) n) ?_
      rw [hbare.count]
      rw [quotesAfter_of_ne (ne_of_not_keep hquote hc)] at hrest
      exact ih hrest

/-- Where quotes are kept, a sealed text stays so when it is escaped. -/
theorem sealed_encode (hquote : keep '\'' = true) {s : List Char} (h : Sealed s) :
    Sealed (encode keep s) where
  commas n hn := commasQuoted_encode hquote (h.commas n hn)
  closed := by
    rw [count_encode hquote]
    exact h.closed

theorem bare_encode {s : List Char} (h : Bare s) : Bare (encode keep s) := by
  refine forall_mem_encode (fun c hc _ => h c hc) (by decide) ?_
  intro n
  exact ⟨upperDigit_ne (by decide) n, upperDigit_ne (by decide) n⟩

end Percent

namespace Parameters

variable {keep : Char → Bool}

/-! ## Members -/

/-- Whether the members of a set are written with their names. -/
def IsNamed (ps : Parameters) : Prop := ps.style = .arguments ∨ 2 ≤ ps.size

/-- The names of a set and its literals before they are escaped. -/
def written (ps : Parameters) : List (String × String) :=
  ps.entries.map fun (name, value) => (name, value.render ps.protocol)

/-- A member that is read: cut at its first equals sign and decoded on both sides. -/
def readMember? (piece : List Char) : Option (String × String) :=
  (splitFirst '=' piece).map fun (name, value) =>
    (String.ofList (Percent.decode name), String.ofList (Percent.decode value))

/-- A named member as it is written. -/
def namedMember (keep : Char → Bool) (p : Protocol) (entry : String × Literal) : List Char :=
  Percent.encode keep entry.1.toList ++ '=' :: Percent.encode keep (entry.2.chars p)

theorem members_of_named {ps : Parameters} (h : ps.IsNamed) {e : Escaping} {position : Position}
    (hkeep : escape e position = Percent.encode keep) :
    ps.members e position = ps.entries.map (namedMember keep ps.protocol) := by
  have hbare : (ps.style == .key && ps.entries.length == 1) = false := by
    rw [Bool.and_eq_false_iff]
    rcases h with h | h
    · exact .inl (by rw [h]; rfl)
    · refine .inr (beq_false_of_ne ?_)
      unfold size at h
      omega
  unfold members
  rw [hbare, hkeep]
  rfl

/-- A member is read as it was put in, if its escaped name holds no equals sign. -/
theorem readMember?_namedMember (hkeep : keep '%' = false) {entry : String × Literal}
    (hname : '=' ∉ Percent.encode keep entry.1.toList) (p : Protocol) :
    readMember? (namedMember keep p entry) = some (entry.1, entry.2.render p) := by
  have hdecode : ∀ s, Percent.decode (Percent.encode keep s) = s := fun s =>
    (Percent.Spells.encode hkeep s).decode
  rw [readMember?, namedMember, splitFirst_append_cons hname, Option.map_some]
  dsimp only
  rw [hdecode, hdecode, String.ofList_toList]
  rfl

theorem map_readMember? (hkeep : keep '%' = false) {ps : Parameters}
    (h : ∀ entry ∈ ps.entries, '=' ∉ Percent.encode keep entry.1.toList) :
    (ps.entries.map (namedMember keep ps.protocol)).map readMember? = ps.written.map some := by
  rw [written, List.map_map, List.map_map]
  refine List.map_congr_left ?_
  intro entry hentry
  exact readMember?_namedMember hkeep (h entry hentry) ps.protocol

/-! ## Delimiters that are escaped -/

/-- **Where delimiters are escaped, a set is cut at all of them.** -/
theorem read_joined {sep : Char} (hsep : sep = '&' ∨ sep = ',') (hkeep : keep '%' = false)
    (hequals : keep '=' = false) (hkept : keep sep = false) {ps : Parameters}
    (hne : ps.entries ≠ []) :
    (splitOn sep (joinWith [sep] (ps.entries.map (namedMember keep ps.protocol)))).map
      readMember? = ps.written.map some := by
  have hescaped : ∀ s, sep ∉ Percent.encode keep s := by
    intro s
    refine Percent.not_mem_encode (by simp [hkept]) ?_ ?_
    · rcases hsep with rfl | rfl <;> decide
    · rcases hsep with rfl | rfl <;> decide
  have hmember : ∀ m ∈ ps.entries.map (namedMember keep ps.protocol), sep ∉ m := by
    intro m hm
    obtain ⟨entry, -, rfl⟩ := List.mem_map.mp hm
    rw [namedMember, List.mem_append, List.mem_cons, not_or, not_or]
    refine ⟨hescaped _, ?_, hescaped _⟩
    rcases hsep with rfl | rfl <;> decide
  rw [splitOn_joinWith (by simpa using hne) hmember]
  refine map_readMember? hkeep ?_
  intro entry _
  exact Percent.not_mem_encode (by simp [hequals]) (by decide) (by decide)

/-! ## Delimiters between quotes -/

/-- Names without delimiters and quotes, and no literals that are texts of the caller. -/
def IsPlain (ps : Parameters) : Prop :=
  ∀ entry ∈ ps.entries, (∀ c ∈ entry.1.toList, c ≠ ',' ∧ c ≠ '=' ∧ c ≠ '\'') ∧
    entry.2.isVerbatim = false

instance (ps : Parameters) : Decidable ps.IsPlain :=
  have (s : List Char) : Decidable (∀ c ∈ s, c ≠ ',' ∧ c ≠ '=' ∧ c ≠ '\'') :=
    List.decidableBAll _ s
  List.decidableBAll _ ps.entries

/-- **Where delimiters are kept, a set is cut at the commas outside quotes.** -/
theorem read_unquoted (hkeep : keep '%' = false) (hquote : keep '\'' = true) {ps : Parameters}
    (hplain : ps.IsPlain) (hne : ps.entries ≠ []) :
    (splitUnquoted 0 (joinWith [','] (ps.entries.map (namedMember keep ps.protocol)))).map
      readMember? = ps.written.map some := by
  have hmember : ∀ m ∈ ps.entries.map (namedMember keep ps.protocol), Sealed m := by
    intro m hm
    obtain ⟨entry, hentry, rfl⟩ := List.mem_map.mp hm
    obtain ⟨hname, hvalue⟩ := hplain entry hentry
    have hbare : Bare (Percent.encode keep entry.1.toList ++ ['=']) := by
      refine bare_append.mpr ⟨Percent.bare_encode ?_, by decide⟩
      intro c hc
      exact ⟨(hname c hc).1, (hname c hc).2.2⟩
    have hsealed := Percent.sealed_encode hquote (Literal.sealed_chars hvalue ps.protocol)
    rw [namedMember, List.append_cons]
    exact (Sealed.of_bare hbare).append hsealed
  rw [splitUnquoted_joinWith (by simpa using hne) hmember rfl]
  refine map_readMember? hkeep ?_
  intro entry hentry
  refine Percent.not_mem_encode ?_ (by decide) (by decide)
  intro _ hequals
  exact ((hplain entry hentry).1 _ hequals).2.1 rfl

/-! ## Written sets -/

theorem toList_render_query (ps : Parameters) (e : Escaping) :
    (ps.render e .query).toList = joinWith ['&'] (ps.members e .query) := String.toList_ofList

theorem toList_render_path (ps : Parameters) (e : Escaping) :
    (ps.render e .path).toList = '(' :: joinWith [','] (ps.members e .path) ++ [')'] :=
  String.toList_ofList

theorem members_of_single {ps : Parameters} (hstyle : ps.style = .key) {name : String}
    {value : Literal} (hentries : ps.entries = [(name, value)]) (e : Escaping)
    (position : Position) :
    ps.members e position = [escape e position (value.chars ps.protocol)] := by
  unfold members
  rw [hentries, hstyle]
  rfl

/-- What an escaping does to a text in either position, unless it does nothing. -/
theorem escape_eq {e : Escaping} (he : e ≠ .none) (position : Position) :
    ∃ keep, escape e position = Percent.encode keep ∧ keep '%' = false := by
  cases e with
  | none => exact absurd rfl he
  | regular =>
    cases position with
    | path => exact ⟨Escaping.keepsInSegment, rfl, by decide⟩
    | query => exact ⟨Escaping.keepsInQuery, rfl, by decide⟩
  | batch =>
    cases position with
    | path => exact ⟨Escaping.keepsInBatch, rfl, by decide⟩
    | query => exact ⟨Escaping.keepsInBatch, rfl, by decide⟩

/-- **A written set can be taken apart.** If its members are named, a query cut at every ampersand
gives all names and literals in their order, and so does a path in a batch cut at every comma. In
other paths the names must hold no delimiter and no quote, and no literal may be a text of the
caller; then the commas outside quotes are the delimiters. A key with one member is its literal
alone. -/
theorem members_of_render (ps : Parameters) :
    (ps.IsNamed → ps.entries ≠ [] →
      (∀ e, e ≠ .none →
        (splitOn '&' (ps.render e .query).toList).map readMember? = ps.written.map some) ∧
      (∃ inner, (ps.render .batch .path).toList = '(' :: inner ++ [')'] ∧
        (splitOn ',' inner).map readMember? = ps.written.map some) ∧
      (ps.IsPlain → ∃ inner, (ps.render .regular .path).toList = '(' :: inner ++ [')'] ∧
        (splitUnquoted 0 inner).map readMember? = ps.written.map some)) ∧
    ∀ name value, ps.style = .key → ps.entries = [(name, value)] → ∀ e, e ≠ .none →
      let text := value.chars ps.protocol
      (ps.render e .query).toList = e.query text ∧
      (ps.render e .path).toList = '(' :: e.segment text ++ [')'] ∧
      Percent.decode (e.query text) = text ∧ Percent.decode (e.segment text) = text := by
  constructor
  · intro hnamed hne
    refine ⟨?_, ?_, ?_⟩
    · intro e he
      rw [toList_render_query]
      cases e with
      | none => exact absurd rfl he
      | regular =>
        rw [members_of_named hnamed rfl]
        exact read_joined (.inl rfl) (by decide) (by decide) (by decide) hne
      | batch =>
        rw [members_of_named hnamed rfl]
        exact read_joined (.inl rfl) (by decide) (by decide) (by decide) hne
    · refine ⟨_, toList_render_path ps .batch, ?_⟩
      rw [members_of_named hnamed rfl]
      exact read_joined (.inr rfl) (by decide) (by decide) (by decide) hne
    · intro hplain
      refine ⟨_, toList_render_path ps .regular, ?_⟩
      rw [members_of_named hnamed rfl]
      exact read_unquoted (by decide) (by decide) hplain hne
  · intro name value hstyle hentries e he
    have hdecode : ∀ position s, Percent.decode (escape e position s) = s := by
      intro position s
      obtain ⟨keep, hescape, hkeep⟩ := escape_eq he position
      rw [hescape]
      exact (Percent.Spells.encode hkeep s).decode
    refine ⟨?_, ?_, hdecode .query _, hdecode .path _⟩
    · rw [toList_render_query, members_of_single hstyle hentries]
      rfl
    · rw [toList_render_path, members_of_single hstyle hentries]
      rfl

/-- Arguments with all delimiters and a quote in a text. -/
def contact : Parameters :=
  ⟨.v4, .arguments, [("name", .text "O'Neil, x=1&y"), ("ü;", .int32 (-5))]⟩

/-- A key whose names hold delimiters and whose values are texts of the caller. -/
def verbatimKey : Parameters := ⟨.v2, .key, [("a,b=c", .raw "1,2='&"), ("n&", .decimal "4,5")]⟩

def singleKey : Parameters := ⟨.v4, .key, [("id", .text "50%, 'x'")]⟩

theorem render_contact :
    contact.render .regular .query = "name='O''Neil,%20x%3D1%26y'&%C3%BC%3B=-5" ∧
      contact.render .regular .path = "(name='O''Neil,%20x=1&y',%C3%BC;=-5)" ∧
      verbatimKey.render .batch .path = "(a%2Cb%3Dc=1%2C2%3D%27%26,n%26=4%2C5M)" := by
  decide +kernel

theorem members_of_render_contact :
    (splitOn '&' "name='O''Neil,%20x%3D1%26y'&%C3%BC%3B=-5".toList).map readMember? =
      [some ("name", "'O''Neil, x=1&y'"), some ("ü;", "-5")] ∧
    (splitUnquoted 0 "name='O''Neil,%20x=1&y',%C3%BC;=-5".toList).map readMember? =
      [some ("name", "'O''Neil, x=1&y'"), some ("ü;", "-5")] ∧
    (splitOn ',' "a%2Cb%3Dc=1%2C2%3D%27%26,n%26=4%2C5M".toList).map readMember? =
      [some ("a,b=c", "1,2='&"), some ("n&", "4,5M")] ∧
    (singleKey.render .regular .path).toList =
      '(' :: Escaping.regular.segment "'50%, ''x'''".toList ++ [')'] := by
  obtain ⟨hquery, hpath, hbatch⟩ := render_contact
  have hcontact : contact.written.map some =
      [some ("name", "'O''Neil, x=1&y'"), some ("ü;", "-5")] := by decide +kernel
  have hverbatim : verbatimKey.written.map some =
      [some ("a,b=c", "1,2='&"), some ("n&", "4,5M")] := by decide +kernel
  obtain ⟨hqueries, -, hplain⟩ := (members_of_render contact).1 (.inl rfl) (by decide)
  obtain ⟨inner, hinner, hpieces⟩ := hplain (by decide +kernel)
  obtain ⟨-, ⟨inner', hinner', hpieces'⟩, -⟩ :=
    (members_of_render verbatimKey).1 (.inr (by decide)) (by decide)
  obtain ⟨-, hsingle, -⟩ :=
    (members_of_render singleKey).2 "id" (.text "50%, 'x'") rfl rfl .regular (by decide)
  refine ⟨?_, ?_, ?_, ?_⟩
  · rw [← hcontact, ← hqueries .regular (by decide), hquery]
  · rw [hpath] at hinner
    obtain rfl : "name='O''Neil,%20x=1&y',%C3%BC;=-5".toList = inner :=
      List.append_cancel_right (List.cons.inj hinner).2
    exact hpieces.trans hcontact
  · rw [hbatch] at hinner'
    obtain rfl : "a%2Cb%3Dc=1%2C2%3D%27%26,n%26=4%2C5M".toList = inner' :=
      List.append_cancel_right (List.cons.inj hinner').2
    exact hpieces'.trans hverbatim
  · exact hsingle

end Parameters

end OData
