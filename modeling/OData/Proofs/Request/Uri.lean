import OData.Proofs.Link.Pieces
import OData.Proofs.Text.KeyOrder
import OData.Request

/-!
# The URI of a request

A request has a URI exactly if its query is escaped, and the URI is then its pieces and its query
(`Request.uri_eq`). Names, keys and service paths are escaped piece by piece, so none of them
reaches beyond its piece: **the pieces of the URI, decoded, are those of the service path and the
segments of the request as they are shown, and its query is what the operation brings along and
the options of the request** (`Request.uri_unambiguous`).
-/

set_option autoImplicit false

namespace OData

open OData.Text

namespace Request

/-- The pieces of the URI of a request. -/
def pieces (r : Request) (e : Escaping) : List (List Char) :=
  Link.pieces e r.context.servicePath.toList (r.target.segments.map (·.chars e))

/-- The URI without its query. -/
def pathText (r : Request) (e : Escaping) : List Char := (r.pieces e).flatMap ('/' :: ·)

variable {r : Request} {e : Escaping}

theorem isPiece_of_mem_pieces (he : e ≠ .none) {p : List Char} (hp : p ∈ r.pieces e) :
    IsPiece p := by
  unfold pieces Link.pieces at hp
  rcases List.mem_append.mp hp with hp | hp
  · obtain ⟨q, -, rfl⟩ := List.mem_map.mp hp
    exact Escaping.isPiece_segment he q
  · split at hp
    · rw [List.mem_singleton.mp hp]
      intro c hc
      cases hc
    · obtain ⟨s, -, rfl⟩ := List.mem_map.mp hp
      exact s.isPiece_chars he

theorem no_question_pathText (he : e ≠ .none) (r : Request) : '?' ∉ r.pathText e :=
  IsPiece.no_question_flatMap fun _ hp => isPiece_of_mem_pieces he hp

/-- **A request that has an escaped query has a URI**, and no other does. -/
theorem uri_eq (he : e ≠ .none) (r : Request) :
    r.uri e = if Link.isEscapedQuery (r.query e) then
        .ok (String.ofList (r.pathText e ++ if r.query e = [] then [] else '?' :: r.query e))
      else .error (.construction (.unescapedQuery (String.ofList (r.query e)))) := by
  have hchars : r.target.chars e = (r.target.segments.map (·.chars e)).flatMap ('/' :: ·) := by
    rw [List.flatMap_map]
    rfl
  rw [uri, Context.link, hchars, Link.compose?_eq he]
  split
  · next uri huri =>
    split at huri
    · next hquery =>
      cases huri
      rw [if_pos hquery]
      rfl
    · cases huri
  · next huri =>
    split at huri
    · cases huri
    · next hquery => rw [if_neg hquery]

theorem of_uri_eq_ok (he : e ≠ .none) {uri : String} (hu : r.uri e = .ok uri) :
    Link.isEscapedQuery (r.query e) = true ∧
      uri.toList = r.pathText e ++ if r.query e = [] then [] else '?' :: r.query e := by
  rw [uri_eq he] at hu
  split at hu
  · next hquery =>
    cases hu
    exact ⟨hquery, String.toList_ofList⟩
  · cases hu

/-! ## Pieces -/

/-- The segments that an operation addresses, as they are shown: those of its path, one more for a
count, and in the newer version of the protocol the parameters of a function behind the last name. -/
def shownSegments (r : Request) : List (List Char) :=
  let shown := r.path.segments.map (·.chars .none)
  match r.operation, r.protocol with
  | .count _, _ => shown ++ ["$count".toList]
  | .function ps, .v4 =>
    shown.dropLast ++
      [((r.path.segments.getLast?.bind (·.name)).getD "").toList ++ ps.chars .none .path]
  | _, _ => shown

theorem shown_withParameters (p : Path) (ps : Parameters) :
    (p.withParameters ps).segments.map (·.chars .none) =
      (p.segments.map (·.chars .none)).dropLast ++
        [((p.segments.getLast?.bind (·.name)).getD "").toList ++ ps.chars .none .path] := by
  obtain ⟨segments⟩ := p
  rcases List.eq_nil_or_concat segments with rfl | ⟨before, ⟨name, parameters⟩, rfl⟩
  · rfl
  · unfold Path.withParameters
    simp only [List.concat_eq_append, List.getLast?_concat, List.dropLast_concat, List.map_append,
      List.map_singleton, Option.bind_some]
    cases name with
    | none => rfl
    | some name => rfl

theorem shown_target (r : Request) :
    r.target.segments.map (·.chars .none) = r.shownSegments := by
  obtain ⟨context, path, operation⟩ := r
  unfold target shownSegments
  cases operation with
  | count query =>
    rw [Path.segment, List.map_append]
    rfl
  | function ps =>
    cases protocol ⟨context, path, .function ps⟩ with
    | v2 => rfl
    | v4 => exact shown_withParameters path ps
  | _ => rfl

theorem decode_pieces (he : e ≠ .none) (r : Request) :
    (r.pieces e).map Percent.decode = Link.servicePieces r.context.servicePath.toList ++
      if r.shownSegments = [] then [[]] else r.shownSegments := by
  have hservice : ∀ q, Percent.decode (e.segment q) = q := fun q =>
    (Escaping.spells_segment he q).decode
  have hsegment : ∀ s : Path.Segment, Percent.decode (s.chars e) = s.chars .none := fun s =>
    (s.spells_chars he).decode
  rw [pieces, Link.pieces, List.map_append, List.map_map, ← shown_target]
  congr 1
  · simp [Function.comp_def, hservice]
  · cases r.target.segments with
    | nil => rfl
    | cons s segments => simp [hsegment, Function.comp_def]

/-! ## Queries -/

/-- The query that an operation brings along: that of a reading or a count, as it was given, and in
the older version of the protocol the parameters of a function. No other operation has one. -/
def specificQuery (r : Request) (e : Escaping) : List Char :=
  match r.operation with
  | .read query | .readByKey query | .count query => query.toList
  | .function ps =>
    match r.protocol with
    | .v2 => ps.chars e .query
    | .v4 => []
  | .create _ | .update _ _ _ | .delete _ | .action _ => []

theorem ownQuery_eq (r : Request) (e : Escaping) : r.ownQuery e = r.specificQuery e := by
  obtain ⟨context, path, operation⟩ := r
  unfold ownQuery specificQuery
  cases operation with
  | function ps => cases protocol ⟨context, path, .function ps⟩ <;> rfl
  | _ => rfl

/-- The options of a request in order: what its operation brings along, if that is anything, and those
added to it. -/
def queryOptions (r : Request) (e : Escaping) : List (List Char) :=
  (if r.specificQuery e = [] then [] else [r.specificQuery e]) ++
    r.context.options.map fun (name, value) => name.toList ++ '=' :: value.toList

theorem joinWith_eq_nil_iff {ps : List (List Char)} (h : ∀ p ∈ ps, p ≠ []) :
    joinWith ['&'] ps = [] ↔ ps = [] := by
  cases ps with
  | nil => exact ⟨fun _ => rfl, fun _ => rfl⟩
  | cons p ps =>
    cases ps with
    | nil => simp [joinWith, h p]
    | cons q ps => simp [joinWith]

theorem query_eq (r : Request) (e : Escaping) :
    r.query e = joinWith ['&'] (r.queryOptions e) := by
  have hne : ∀ p ∈ r.context.options.map fun (name, value) => name.toList ++ '=' :: value.toList,
      p ≠ [] := by
    intro p hp
    obtain ⟨⟨name, value⟩, -, rfl⟩ := List.mem_map.mp hp
    simp
  unfold query queryOptions Context.optionsQuery
  rw [ownQuery_eq]
  generalize r.context.options.map (fun (name, value) => name.toList ++ '=' :: value.toList) =
    options at hne ⊢
  have hempty := joinWith_eq_nil_iff hne
  by_cases hown : r.specificQuery e = []
  · rw [hown, if_pos rfl]
    cases options with
    | nil => rfl
    | cons o options => simp [joinWith, hempty]
  · rw [if_neg hown]
    cases options with
    | nil => simp [joinWith, hown]
    | cons o options => simp [joinWith, hown, hempty]

end Request

/-- The settings that a request can have: those that it starts with, changed in any way. -/
inductive Context.Made : Context → Prop where
  | initial (servicePath : String) (p : Protocol) : Made (.initial servicePath p)
  | change {c : Context} (before : Made c) (ch : Change) : Made (c.change ch)
  | set {c : Context} (before : Made c) (headers : Headers) (tokens : TokenSource)
      (listeners : List Listener) (buffering : Bool) :
      Made { c with headers, tokens, listeners, buffering }

/-- Options are kept in the order of their names. -/
theorem Context.Made.ascending {c : Context} (h : c.Made) : Ascending c.options := by
  induction h with
  | initial servicePath p => exact .nil
  | change before ch ih =>
    cases ch with
    | addOption name value => exact ascending_insertByKey ih name value
    | addHeader name value => exact ih
    | setHeader name value => exact ih
    | addHeaderIfAbsent name value => exact ih
  | set before _ _ _ _ ih => exact ih

namespace Request

/-- **The URI of a request can be taken apart without doubt.** Cut at the slashes and decoded piece
by piece, its path is the service path without its empty pieces and then the segments as they are
shown; its query is what the operation brings along, and the options of the request in the order of
their names, as they were given. -/
theorem uri_unambiguous {r : Request} (hr : r.context.Made) {e : Escaping} (he : e ≠ .none)
    {uri : String} (hu : r.uri e = .ok uri) :
    (splitOn '/' (Link.pathOf uri.toList)).map Percent.decode =
      [] :: ((splitOn '/' r.context.servicePath.toList).filter (!·.isEmpty) ++
        if r.shownSegments = [] then [[]] else r.shownSegments) ∧
    Link.query? uri.toList = (if joinWith ['&'] (r.queryOptions e) = [] then none
      else some (joinWith ['&'] (r.queryOptions e))) ∧
    Ascending r.context.options := by
  obtain ⟨hescaped, huri⟩ := of_uri_eq_ok he hu
  have hquestion := no_question_pathText he r
  refine ⟨?_, ?_, hr.ascending⟩
  · have hpieces : ∀ p ∈ r.pieces e, '/' ∉ p := fun p hp => (isPiece_of_mem_pieces he hp).no_slash
    rw [huri, Link.pathOf_append hquestion, pathText, splitOn_flatMap hpieces, List.map_cons,
      decode_pieces he]
    rfl
  · rw [huri, ← query_eq]
    exact Link.query?_append hquestion hescaped

/-- A function call whose names and parameters hold all kinds of delimiters. -/
def callWithDelimiters (p : Protocol) : Request :=
  let key : Parameters := ⟨p, .key, [("id", .text "a/b?c")]⟩
  let arguments : Parameters := ⟨p, .arguments, [("x", .text "é%&"), ("y", .int32 1)]⟩
  let r := Request.of "//my svc/" ((Path.ofKey "S/T" key).segment "f#") p (.function arguments)
  (r.change (.addOption "b" "2")).change (.addOption "a" "1?")

theorem made_callWithDelimiters (p : Protocol) : (callWithDelimiters p).context.Made :=
  .change (c := (Context.initial "//my svc/" p).change (.addOption "b" "2"))
    (.change (.initial "//my svc/" p) (.addOption "b" "2")) (.addOption "a" "1?")

theorem uri_callWithDelimiters :
    (callWithDelimiters .v4).uri .regular =
      .ok "/my%20svc/S%2FT('a%2Fb%3Fc')/f%23(x='%C3%A9%25&',y=1)?a=1?&b=2" ∧
    (callWithDelimiters .v2).uri .regular =
      .ok "/my%20svc/S%2FT('a%2Fb%3Fc')/f%23?x='%C3%A9%25%26'&y=1&a=1?&b=2" := by
  have hquery : ∀ p, Link.isEscapedQuery ((callWithDelimiters p).query .regular) = true := by
    intro p
    cases p <;> decide +kernel
  rw [uri_eq (by decide), uri_eq (by decide), if_pos (hquery .v4), if_pos (hquery .v2)]
  exact ⟨congrArg Except.ok (by decide +kernel), congrArg Except.ok (by decide +kernel)⟩

/-- Every piece of the path comes back as it was, and so does every option: in the older version of
the protocol the parameters are the first two of them. -/
theorem uri_unambiguous_delimiters :
    (splitOn '/' (Link.pathOf
        "/my%20svc/S%2FT('a%2Fb%3Fc')/f%23(x='%C3%A9%25&',y=1)?a=1?&b=2".toList)).map
          Percent.decode =
      [[], "my svc".toList, "S/T('a/b?c')".toList, "f#(x='é%&',y=1)".toList] ∧
    Link.query? "/my%20svc/S%2FT('a%2Fb%3Fc')/f%23?x='%C3%A9%25%26'&y=1&a=1?&b=2".toList =
      some "x='%C3%A9%25%26'&y=1&a=1?&b=2".toList := by
  obtain ⟨hnewer, holder⟩ := uri_callWithDelimiters
  obtain ⟨hpath, -, -⟩ :=
    uri_unambiguous (made_callWithDelimiters .v4) (e := .regular) (by decide) hnewer
  obtain ⟨-, hquery, -⟩ :=
    uri_unambiguous (made_callWithDelimiters .v2) (e := .regular) (by decide) holder
  rw [hpath, hquery]
  constructor
  · decide +kernel
  · decide +kernel

end Request

end OData
