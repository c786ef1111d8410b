import OData.Path
import OData.Proofs.Percent
import OData.Proofs.Text.Pieces

/-!
# The pieces of a link

The path of a link is made of pieces, each with a slash in front. An escaped piece holds neither a
slash nor a question mark, so it can be told where it begins and ends, and decoding it gives what it
was made from (`spells_segment`, `spells_chars`). Tidying a path leaves out its empty pieces
(`tidy_joinWith`). **So a link is its pieces and its query** (`compose?_eq`), and is taken apart
into them again (`pathOf_append`, `query?_append`).
-/

set_option autoImplicit false

namespace OData

open OData.Text

/-! ## Escaped pieces -/

/-- A text that does not reach beyond its place in a path. -/
def IsPiece (s : List Char) : Prop := ∀ c ∈ s, c ≠ '/' ∧ c ≠ '?'

namespace IsPiece

theorem no_slash {s : List Char} (h : IsPiece s) : '/' ∉ s := fun hs => (h _ hs).1 rfl

theorem no_question {s : List Char} (h : IsPiece s) : '?' ∉ s := fun hs => (h _ hs).2 rfl

theorem no_question_flatMap {ps : List (List Char)} (h : ∀ p ∈ ps, IsPiece p) :
    '?' ∉ ps.flatMap ('/' :: ·) := by
  intro hs
  obtain ⟨p, hp, hs⟩ := List.mem_flatMap.mp hs
  rcases List.mem_cons.mp hs with hs | hs
  · cases hs
  · exact (h p hp).no_question hs

end IsPiece

namespace Escaping

variable {e : Escaping}

theorem segment_eq (he : e ≠ .none) : ∃ keep : Char → Bool, e.segment = Percent.encode keep ∧
    keep '%' = false ∧ keep '/' = false ∧ keep '?' = false := by
  cases e with
  | none => exact absurd rfl he
  | regular => exact ⟨keepsInSegment, rfl, by decide, by decide, by decide⟩
  | batch => exact ⟨keepsInBatch, rfl, by decide, by decide, by decide⟩

theorem spells_segment (he : e ≠ .none) (s : List Char) : Percent.Spells (e.segment s) s := by
  obtain ⟨keep, hsegment, hkeep, -, -⟩ := segment_eq he
  rw [hsegment]
  exact .encode hkeep s

theorem segment_eq_nil_iff (he : e ≠ .none) {s : List Char} : e.segment s = [] ↔ s = [] := by
  obtain ⟨keep, hsegment, hkeep, -, -⟩ := segment_eq he
  rw [hsegment]
  exact Percent.encode_eq_nil_iff hkeep

theorem isPiece_segment (he : e ≠ .none) (s : List Char) : IsPiece (e.segment s) := by
  obtain ⟨keep, hsegment, -, hslash, hquestion⟩ := segment_eq he
  rw [hsegment]
  intro c hc
  constructor
  · rintro rfl
    exact Percent.not_mem_encode (by simp [hslash]) (by decide) (by decide) hc
  · rintro rfl
    exact Percent.not_mem_encode (by simp [hquestion]) (by decide) (by decide) hc

end Escaping

/-! ## Written segments -/

section

variable {e : Escaping}

theorem mem_joinWith {sep : List Char} {ps : List (List Char)} {c : Char}
    (h : c ∈ joinWith sep ps) : c ∈ sep ∨ ∃ p ∈ ps, c ∈ p := by
  induction ps with
  | nil => cases h
  | cons p ps ih =>
    cases ps with
    | nil => exact .inr ⟨p, List.mem_singleton_self p, h⟩
    | cons q ps =>
      rcases List.mem_append.mp h with h | h
      · rcases List.mem_append.mp h with h | h
        · exact .inr ⟨p, List.mem_cons_self, h⟩
        · exact .inl h
      · rcases ih h with h | ⟨r, hr, h⟩
        · exact .inl h
        · exact .inr ⟨r, List.mem_cons_of_mem _ hr, h⟩

/-- A segment is made of escaped texts and of the delimiters between them. -/
theorem Path.Segment.mem_chars {s : Path.Segment} {c : Char} (h : c ∈ s.chars e) :
    (∃ t, c ∈ e.segment t) ∨ c ∈ ['(', ',', '=', ')'] := by
  unfold chars at h
  rcases List.mem_append.mp h with h | h
  · split at h
    · cases h
    · exact .inl ⟨_, h⟩
  · split at h
    · cases h
    · next ps =>
      unfold Parameters.chars at h
      rcases List.mem_cons.mp h with rfl | h
      · simp
      rcases List.mem_append.mp h with h | h
      · rcases mem_joinWith h with h | ⟨m, hm, h⟩
        · rw [List.mem_singleton.mp h]
          simp
        · obtain ⟨⟨name, value⟩, -, rfl⟩ := List.mem_map.mp hm
          dsimp only at h
          split at h
          · exact .inl ⟨_, h⟩
          · rcases List.mem_append.mp h with h | h
            · exact .inl ⟨_, h⟩
            · rcases List.mem_cons.mp h with rfl | h
              · simp
              · exact .inl ⟨_, h⟩
      · rw [List.mem_singleton.mp h]
        simp

theorem Path.Segment.isPiece_chars (he : e ≠ .none) (s : Path.Segment) : IsPiece (s.chars e) := by
  intro c hc
  rcases mem_chars hc with ⟨t, ht⟩ | hc
  · exact Escaping.isPiece_segment he t c ht
  · simp only [List.mem_cons, List.not_mem_nil, or_false] at hc
    rcases hc with rfl | rfl | rfl | rfl
    · decide
    · decide
    · decide
    · decide

/-- Delimiters stand as they are, so parameters are spelled member by member. -/
theorem Parameters.spells_chars (he : e ≠ .none) (ps : Parameters) :
    Percent.Spells (ps.chars e .path) (ps.chars .none .path) := by
  refine .cons (by decide) (.append ?_ (.cons (by decide) .nil))
  apply Percent.Spells.joinWith (by decide)
  rintro ⟨name, value⟩ -
  dsimp only
  split
  · exact Escaping.spells_segment he _
  · exact (Escaping.spells_segment he _).append (.cons (by decide) (Escaping.spells_segment he _))

/-- **An escaped segment spells the segment as it is shown.** -/
theorem Path.Segment.spells_chars (he : e ≠ .none) (s : Path.Segment) :
    Percent.Spells (s.chars e) (s.chars .none) := by
  obtain ⟨name, parameters⟩ := s
  apply Percent.Spells.append
  · cases name with
    | none => exact .nil
    | some name => exact Escaping.spells_segment he _
  · cases parameters with
    | none => exact .nil
    | some ps => exact ps.spells_chars he

end

/-! ## Tidying -/

namespace Link

theorem collapseSlashes_cons {c : Char} (hc : c ≠ '/') (s : List Char) :
    collapseSlashes (c :: s) = c :: collapseSlashes s := by
  cases s with
  | nil => rfl
  | cons d s =>
    rw [collapseSlashes]
    intro hslash
    exact absurd hslash hc

theorem collapseSlashes_append {p : List Char} (hp : '/' ∉ p) (s : List Char) :
    collapseSlashes (p ++ s) = p ++ collapseSlashes s := by
  induction p with
  | nil => rfl
  | cons c p ih =>
    have hc : c ≠ '/' := fun h => hp (by simp [h])
    rw [List.cons_append, collapseSlashes_cons hc, ih fun h => hp (List.mem_cons_of_mem _ h)]
    rfl

/-- Of a run of slashes the last stays, so an empty piece is lost unless nothing follows it. -/
theorem collapseSlashes_flatMap {ps : List (List Char)} (h : ∀ p ∈ ps, '/' ∉ p) :
    collapseSlashes (ps.flatMap ('/' :: ·)) =
      (ps.filter (!·.isEmpty)).flatMap ('/' :: ·) ++ if ps.getLast? = some [] then ['/'] else [] := by
  induction ps with
  | nil => rfl
  | cons p ps ih =>
    have hrest := ih fun q hq => h q (List.mem_cons_of_mem _ hq)
    cases p with
    | nil =>
      cases ps with
      | nil => rfl
      | cons q ps =>
        rw [List.getLast?_cons_cons]
        exact hrest
    | cons c p =>
      have hp : '/' ∉ c :: p := h _ List.mem_cons_self
      have hc : c ≠ '/' := fun hc => hp (by simp [hc])
      have hlast : (((c :: p) :: ps).getLast? = some []) = (ps.getLast? = some []) := by
        cases ps with
        | nil => simp
        | cons q ps => rw [List.getLast?_cons_cons]
      have hslash : collapseSlashes ('/' :: ((c :: p) ++ ps.flatMap ('/' :: ·))) =
          '/' :: collapseSlashes ((c :: p) ++ ps.flatMap ('/' :: ·)) := by
        rw [List.cons_append, collapseSlashes]
        intro _ hslash
        exact absurd hslash hc
      rw [List.flatMap_cons, List.cons_append, hslash, collapseSlashes_append hp, hrest]
      simp only [hlast]
      simp

theorem dropLastIf_concat (c : Char) (s : List Char) : dropLastIf c (s ++ [c]) = s := by
  simp [dropLastIf]

theorem dropLastIf_of_ne {c : Char} {s : List Char} (h : s.getLast? ≠ some c) :
    dropLastIf c s = s := by
  rw [dropLastIf, if_neg h]

/-- Pieces that are not empty end in no slash. -/
theorem getLast?_flatMap_ne {ps : List (List Char)} (h : ∀ p ∈ ps, '/' ∉ p ∧ p ≠ []) :
    (ps.flatMap ('/' :: ·)).getLast? ≠ some '/' := by
  rcases List.eq_nil_or_concat ps with rfl | ⟨qs, q, rfl⟩
  · simp
  · obtain ⟨hslash, hne⟩ := h q (by simp)
    obtain ⟨rs, c, rfl⟩ := (List.eq_nil_or_concat q).resolve_left hne
    rw [List.concat_eq_append, List.flatMap_append, List.flatMap_singleton, List.concat_eq_append,
      ← List.cons_append, ← List.append_assoc, List.getLast?_concat]
    intro hc
    exact hslash (by simp [Option.some.inj hc])

/-- **Tidying leaves out the empty pieces** and puts a slash in front of each other one. -/
theorem tidy_joinWith {ps : List (List Char)} (hne : ps ≠ []) (h : ∀ p ∈ ps, '/' ∉ p) :
    tidy (joinWith ['/'] ps) = (ps.filter (!·.isEmpty)).flatMap ('/' :: ·) := by
  have hfilter : ∀ p ∈ ps.filter (!·.isEmpty), '/' ∉ p ∧ p ≠ [] := by
    intro p hp
    obtain ⟨hmem, hempty⟩ := List.mem_filter.mp hp
    exact ⟨h p hmem, by simpa using hempty⟩
  rw [tidy, cons_joinWith hne, collapseSlashes_flatMap h]
  split
  · exact dropLastIf_concat _ _
  · rw [List.append_nil]
    exact dropLastIf_of_ne (getLast?_flatMap_ne hfilter)

/-! ## Whole links -/

/-- The pieces of a service path. -/
def servicePieces (servicePath : List Char) : List (List Char) :=
  (splitOn '/' servicePath).filter (!·.isEmpty)

/-- The pieces of a link below a service; without segments there is an empty one behind the
service. -/
def pieces (e : Escaping) (servicePath : List Char) (segments : List (List Char)) :
    List (List Char) :=
  (servicePieces servicePath).map e.segment ++ if segments = [] then [[]] else segments

/-- A link without its query. -/
def pathOf (link : List Char) : List Char := ((splitFirst '?' link).map Prod.fst).getD link

variable {e : Escaping}

theorem tidy_escapePath (he : e ≠ .none) (servicePath : List Char) :
    tidy (escapePath e servicePath) =
      ((servicePieces servicePath).map e.segment).flatMap ('/' :: ·) := by
  have hslash : ∀ p ∈ (splitOn '/' servicePath).map e.segment, '/' ∉ p := by
    intro p hp
    obtain ⟨q, -, rfl⟩ := List.mem_map.mp hp
    exact (Escaping.isPiece_segment he q).no_slash
  have hempty : ((!·.isEmpty) ∘ e.segment : List Char → Bool) = (!·.isEmpty) := by
    funext p
    simp only [Function.comp_apply]
    rw [Bool.eq_iff_iff]
    simp [Escaping.segment_eq_nil_iff he]
  rw [escapePath, tidy_joinWith (by simp [splitOn_ne_nil]) hslash, List.filter_map, hempty,
    servicePieces]

/-- **A link is its pieces and its query**, if there is one and it is escaped. -/
theorem compose?_eq (he : e ≠ .none) (servicePath : List Char) (segments : List (List Char))
    (query : List Char) :
    compose? e servicePath (segments.flatMap ('/' :: ·)) query =
      if isEscapedQuery query then
        some ((pieces e servicePath segments).flatMap ('/' :: ·) ++
          if query = [] then [] else '?' :: query)
      else none := by
  have hpath : tidy (escapePath e servicePath) ++
      (if (segments.flatMap ('/' :: ·)).head? = some '/' then segments.flatMap ('/' :: ·)
        else '/' :: segments.flatMap ('/' :: ·)) =
      (pieces e servicePath segments).flatMap ('/' :: ·) := by
    rw [tidy_escapePath he, pieces, List.flatMap_append]
    cases segments with
    | nil => rfl
    | cons s segments => simp
  unfold compose?
  dsimp only
  rw [hpath]
  cases query with
  | nil => simp [isEscapedQuery]
  | cons c query => simp

/-- A link of pieces is cut at its question mark, whatever the query holds. -/
theorem pathOf_append {path : List Char} (hpath : '?' ∉ path) (query : List Char) :
    pathOf (path ++ if query = [] then [] else '?' :: query) = path := by
  unfold pathOf
  split
  · rw [List.append_nil, splitFirst_eq_none hpath]
    rfl
  · rw [splitFirst_append_cons hpath]
    rfl

theorem query?_append {path query : List Char} (hpath : '?' ∉ path)
    (hquery : isEscapedQuery query = true) :
    query? (path ++ if query = [] then [] else '?' :: query) =
      if query = [] then none else some query := by
  have hfragment : '#' ∉ query := by
    intro h
    exact absurd (List.all_eq_true.mp hquery _ h) (by decide)
  unfold query?
  split
  · rw [List.append_nil, splitFirst_eq_none hpath]
    rfl
  · rw [splitFirst_append_cons hpath, Option.map_some]
    dsimp only
    rw [splitFirst_eq_none hfragment]
    rfl

end Link

end OData
