import OData.Request

/-!
# What an escaped link may hold

Every relative URI that a request gives out, unless it is meant for display only, is made of the
characters that an escaped query may hold and of no others (`escaped_uri`). A blank or a line ending
in a name, in a key or in the service path does not reach it: names and values are escaped, the
delimiters between them are allowed, and a query that holds anything else is refused.
-/

set_option autoImplicit false

namespace OData

open OData.Text

/-- A text of the characters that an escaped link may hold. -/
def Escaped (s : List Char) : Prop := ∀ c ∈ s, Link.isQueryChar c = true

namespace Escaped

theorem nil : Escaped [] := by simp [Escaped]

theorem cons {c : Char} {s : List Char} (hc : Link.isQueryChar c = true) (hs : Escaped s) :
    Escaped (c :: s) := by
  intro d hd
  rcases List.mem_cons.mp hd with rfl | hd
  · exact hc
  · exact hs d hd

theorem append {s t : List Char} (hs : Escaped s) (ht : Escaped t) : Escaped (s ++ t) := by
  intro c hc
  rcases List.mem_append.mp hc with hc | hc
  · exact hs c hc
  · exact ht c hc

theorem of_subset {s t : List Char} (ht : Escaped t) (h : s ⊆ t) : Escaped s :=
  fun c hc => ht c (h hc)

theorem flatMap {α : Type} {f : α → List Char} {xs : List α} (h : ∀ x ∈ xs, Escaped (f x)) :
    Escaped (xs.flatMap f) := by
  intro c hc
  obtain ⟨x, hx, hc⟩ := List.mem_flatMap.mp hc
  exact h x hx c hc

theorem joinWith {sep : List Char} (hsep : Escaped sep) {ps : List (List Char)}
    (hps : ∀ p ∈ ps, Escaped p) : Escaped (joinWith sep ps) := by
  induction ps with
  | nil => exact nil
  | cons p ps ih =>
    have hp := hps p (by simp)
    cases ps with
    | nil => exact hp
    | cons q ps =>
      have hrest := ih (fun r hr => hps r (by simp [hr]))
      exact (hp.append hsep).append hrest

theorem append_iff {s t : List Char} : Escaped (s ++ t) ↔ Escaped s ∧ Escaped t :=
  List.forall_mem_append

/-- Where the separator is escaped, so is the joined text exactly if all pieces are. -/
theorem joinWith_iff {sep : List Char} (hsep : Escaped sep) {ps : List (List Char)} :
    Escaped (Text.joinWith sep ps) ↔ ∀ p ∈ ps, Escaped p := by
  refine ⟨?_, joinWith hsep⟩
  intro h
  induction ps with
  | nil => simp
  | cons p ps ih =>
    cases ps with
    | nil => exact List.forall_mem_singleton.mpr h
    | cons q ps =>
      obtain ⟨hfront, hrest⟩ := append_iff.mp h
      exact List.forall_mem_cons.mpr ⟨(append_iff.mp hfront).1, ih hrest⟩

theorem no_feed {s : List Char} (hs : Escaped s) : '\n' ∉ s := by
  intro h
  exact absurd (hs '\n' h) (by decide)

end Escaped

/-! ## Escaping -/

theorem isQueryChar_upperDigit (n : Nat) : Link.isQueryChar (Hex.upperDigit n) = true := by
  have hall : ∀ k < 16, Link.isQueryChar (Hex.upperDigit k) = true := by decide
  rw [← Hex.upperDigit_mod]
  exact hall _ (Nat.mod_lt n (by decide))

theorem escaped_escapeByte (b : UInt8) : Escaped (Percent.escapeByte b) := by
  refine .cons (by decide) (.cons ?_ (.cons ?_ .nil))
  · exact isQueryChar_upperDigit _
  · exact isQueryChar_upperDigit _

/-- An encoding writes what it keeps, which is allowed, and escapes, which are. -/
theorem escaped_encode {keep : Char → Bool} (hk : ∀ c, keep c = true → Link.isQueryChar c = true)
    (s : List Char) : Escaped (Percent.encode keep s) := by
  refine .flatMap ?_
  intro c _
  unfold Percent.escapeChar
  split
  · next hc => exact .cons (hk c hc) .nil
  · exact .flatMap fun b _ => escaped_escapeByte b

/-- A class of characters made of the plain ones and some others is in a larger such class. -/
theorem isQueryChar_of_plain_or {others : List Char}
    (ho : ∀ c ∈ others, Link.isQueryChar c = true) (c : Char)
    (hc : (Escaping.isPlain c || others.contains c) = true) : Link.isQueryChar c = true := by
  rcases Bool.or_eq_true_iff.mp hc with h | h
  · rw [Link.isQueryChar, show c.isAlphanum = true from h, Bool.true_or]
  · exact ho c (List.contains_iff_mem.mp h)

/-- Both ways of escaping leave nothing in a segment that a link may not hold. -/
theorem escaped_segment {e : Escaping} (he : e ≠ .none) (s : List Char) :
    Escaped (e.segment s) := by
  cases e with
  | none => exact absurd rfl he
  | regular => exact escaped_encode (isQueryChar_of_plain_or (by simp [Link.isQueryChar])) s
  | batch => exact escaped_encode (isQueryChar_of_plain_or (by simp [Link.isQueryChar])) s

theorem escaped_query {e : Escaping} (he : e ≠ .none) (s : List Char) : Escaped (e.query s) := by
  cases e with
  | none => exact absurd rfl he
  | regular => exact escaped_encode (isQueryChar_of_plain_or (by simp [Link.isQueryChar])) s
  | batch => exact escaped_encode (isQueryChar_of_plain_or (by simp [Link.isQueryChar])) s

/-! ## Paths -/

theorem collapseSlashes_subset (s : List Char) : Link.collapseSlashes s ⊆ s := by
  fun_induction Link.collapseSlashes s with
  | case1 => exact List.Subset.refl _
  | case2 c => exact List.Subset.refl _
  | case3 r ih =>
    intro c hc
    exact List.mem_cons_of_mem _ (ih hc)
  | case4 c d r _ ih => exact List.cons_subset_cons c ih

theorem dropLastIf_subset {α : Type} [DecidableEq α] (a : α) (s : List α) :
    dropLastIf a s ⊆ s := by
  unfold dropLastIf
  split
  · exact List.dropLast_subset s
  · exact List.Subset.refl s

theorem escaped_tidy {path : List Char} (h : Escaped path) : Escaped (Link.tidy path) := by
  have hslash : Escaped ('/' :: path) := .cons (by decide) h
  -- Tidying leaves characters out and adds none but the slash.
  refine hslash.of_subset ?_
  intro c hc
  exact collapseSlashes_subset _ (dropLastIf_subset '/' _ hc)

theorem escaped_escapePath {e : Escaping} (he : e ≠ .none) (path : List Char) :
    Escaped (Link.escapePath e path) := by
  refine .joinWith (.cons (by decide) .nil) ?_
  intro p hp
  obtain ⟨q, -, rfl⟩ := List.mem_map.mp hp
  exact escaped_segment he q

/-- Parameters are escaped member by member, and no delimiter needs an escape. -/
theorem escaped_parameters {e : Escaping} (he : e ≠ .none) (ps : Parameters)
    (position : Parameters.Position) : Escaped (ps.chars e position) := by
  have hescape : ∀ s, Escaped (Parameters.escape e position s) := by
    intro s
    cases position with
    | path => exact escaped_segment he s
    | query => exact escaped_query he s
  have hmember : ∀ m ∈ ps.members e position, Escaped m := by
    intro m hm
    obtain ⟨⟨name, value⟩, -, rfl⟩ := List.mem_map.mp hm
    dsimp only
    split
    · exact hescape _
    · exact (hescape _).append (.cons (by decide) (hescape _))
  cases position with
  | path =>
    have hall : Escaped (Text.joinWith [','] (ps.members e .path)) :=
      .joinWith (.cons (by decide) .nil) hmember
    exact (Escaped.cons (by decide) hall).append (.cons (by decide) .nil)
  | query => exact .joinWith (.cons (by decide) .nil) hmember

theorem escaped_path {e : Escaping} (he : e ≠ .none) (p : Path) : Escaped (p.chars e) := by
  refine .flatMap ?_
  intro s _
  refine .cons (by decide) (.append ?_ ?_)
  · split
    · exact .nil
    · exact escaped_segment he _
  · split
    · exact .nil
    · exact escaped_parameters he _ _

/-! ## Whole links -/

/-- A link whose query is not escaped is refused, and all else in it is escaped. -/
theorem escaped_compose {e : Escaping} (he : e ≠ .none) {servicePath resourcePath query : List Char}
    (hr : Escaped resourcePath) {uri : List Char}
    (hu : Link.compose? e servicePath resourcePath query = some uri) : Escaped uri := by
  have hroot := escaped_tidy (escaped_escapePath he servicePath)
  have hpath : Escaped (if resourcePath.head? = some '/' then resourcePath
      else '/' :: resourcePath) := by
    split
    · exact hr
    · exact .cons (by decide) hr
  unfold Link.compose? at hu
  dsimp only at hu
  split at hu
  · cases hu
    exact hroot.append hpath
  split at hu
  · next hq =>
    cases hu
    exact (hroot.append hpath).append (.cons (by decide) (List.all_eq_true.mp hq))
  · cases hu

theorem escaped_link {e : Escaping} (he : e ≠ .none) {c : Context} {path query : List Char}
    (hpath : Escaped path) {uri : String} (hu : c.link e path query = .ok uri) :
    Escaped uri.toList := by
  unfold Context.link at hu
  split at hu
  · next chars hc =>
    cases hu
    rw [String.toList_ofList]
    exact escaped_compose he hpath hc
  · cases hu

/-- **The URI of a request is escaped throughout**, wherever it can be made. -/
theorem escaped_uri {r : Request} {e : Escaping} (he : e ≠ .none) {uri : String}
    (hu : r.uri e = .ok uri) : Escaped uri.toList := escaped_link he (escaped_path he _) hu

end OData
