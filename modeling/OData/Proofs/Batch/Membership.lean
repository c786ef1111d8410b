import OData.Proofs.Batch.Numbering
import OData.Proofs.MediaType
import OData.Proofs.Request.Uri

/-!
# Which requests a batch takes

A batch compares texts: the URI of a request has to begin with the service root of the batch. Both
are made of escaped pieces, so **the texts agree at the borders of pieces only**
(`Request.pieces_of_uri`), and a piece of a service path looks like a segment of a resource path
only if the segment is that name and nothing else (`Path.Segment.chars_eq_segment_iff`). This tells
which requests are taken and what of their URI stands in the request line (`Draft.taken_iff_below`).
-/

set_option autoImplicit false

namespace OData

open OData.Text

/-- What follows a text without a question mark does not change what of it belongs to the path. -/
theorem Link.pathOf_append_of_no_question {p : List Char} (h : '?' ∉ p) (s : List Char) :
    pathOf (p ++ s) = p ++ pathOf s := by
  unfold pathOf
  rw [splitFirst_append h]
  cases splitFirst '?' s <;> rfl

/-! ## Pieces and segments -/

theorem Escaping.segment_injective {e : Escaping} (he : e ≠ .none) :
    Function.Injective e.segment := by
  intro s t h
  calc s = Percent.decode (e.segment s) := (spells_segment he s).decode.symm
    _ = Percent.decode (e.segment t) := by rw [h]
    _ = t := (spells_segment he t).decode

/-- In a batch, parentheses in a name are escaped. -/
theorem Escaping.no_parenthesis (s : List Char) : '(' ∉ Escaping.batch.segment s := by
  have hkeep : keepsInBatch '(' = false := by decide
  exact Percent.not_mem_encode (by simp [hkeep]) (by decide) (by decide)

/-- A segment that is a name and has no parameters. -/
def Path.Segment.named (name : String) : Path.Segment := ⟨some name, none⟩

/-- **A segment looks like a piece of a service path only if it is that name.** -/
theorem Path.Segment.chars_eq_segment_iff {s : Path.Segment} {name : String} (hname : name ≠ "") :
    s.chars .batch = Escaping.batch.segment name.toList ↔ s = .named name := by
  constructor
  · intro h
    obtain ⟨n, parameters⟩ := s
    cases parameters with
    | some ps =>
      -- The parenthesis before the parameters would be in the name.
      refine absurd ?_ (Escaping.no_parenthesis name.toList)
      rw [← h]
      simp [chars, Parameters.chars]
    | none =>
      cases n with
      | none =>
        have hnil : name.toList = [] := (Escaping.segment_eq_nil_iff (by decide)).mp h.symm
        exact absurd (String.toList_eq_nil_iff.mp hnil) hname
      | some n =>
        rw [chars, List.append_nil] at h
        have hn : n.toList = name.toList := Escaping.segment_injective (by decide) h
        rw [String.toList_inj.mp hn]
        rfl
  · rintro rfl
    rw [named, chars, List.append_nil]

theorem map_chars_eq_iff {segments : List Path.Segment} {names : List String}
    (h : ∀ name ∈ names, name ≠ "") :
    segments.map (·.chars .batch) = names.map (Escaping.batch.segment ·.toList) ↔
      segments = names.map .named := by
  induction names generalizing segments with
  | nil => simp
  | cons name names ih =>
    cases segments with
    | nil => simp
    | cons s segments =>
      rw [List.map_cons, List.map_cons, List.map_cons, List.cons_eq_cons, List.cons_eq_cons,
        Path.Segment.chars_eq_segment_iff (h name List.mem_cons_self)]
      exact and_congr_right fun _ => ih fun n hn => h n (List.mem_cons_of_mem _ hn)

/-- Whether what stands below a service, at some segments, is below another service too. `S` are the
pieces of that other service and `T` those of the first: `S` contains `T`, or is reached from it by
names, which are the first segments but not all of them. -/
inductive Below (S T : List (List Char)) (segments : List Path.Segment) : Prop where
  | service (h : S <+: T)
  | names (names : List String) (h : S = T ++ names.map String.toList)
      (hlt : names.length < segments.length)
      (htake : segments.take names.length = names.map Path.Segment.named)

section

variable {S : List (List Char)} {servicePath : List Char} {segments : List Path.Segment}

theorem pieces_of_below (h : Below S (Link.servicePieces servicePath) segments) :
    ∃ rest, rest ≠ [] ∧ Link.pieces .batch servicePath (segments.map (·.chars .batch)) =
      S.map Escaping.batch.segment ++ rest := by
  unfold Link.pieces
  cases h with
  | service h =>
    obtain ⟨ts, hts⟩ := h
    refine ⟨_, ?_, by rw [← hts, List.map_append, List.append_assoc]⟩
    intro hnil
    have hlast := (List.append_eq_nil_iff.mp hnil).2
    split at hlast
    · cases hlast
    · contradiction
  | names names h hlt htake =>
    subst h
    refine ⟨(segments.drop names.length).map (·.chars .batch), ?_, ?_⟩
    · simpa using hlt
    · have hne : segments.map (·.chars .batch) ≠ [] := by
        rintro hnil
        rw [List.map_eq_nil_iff.mp hnil] at hlt
        exact Nat.not_lt_zero _ hlt
      have hnamed : (segments.take names.length).map (·.chars .batch) =
          (names.map String.toList).map Escaping.batch.segment := by
        rw [htake, List.map_map, List.map_map]
        simp [Path.Segment.named, Path.Segment.chars]
      rw [if_neg hne, List.map_append, List.append_assoc, ← hnamed, ← List.map_append,
        List.take_append_drop]

theorem below_of_pieces (hS : ∀ p ∈ S, p ≠ []) {rest : List (List Char)} (hrest : rest ≠ [])
    (h : Link.pieces .batch servicePath (segments.map (·.chars .batch)) =
      S.map Escaping.batch.segment ++ rest) :
    Below S (Link.servicePieces servicePath) segments := by
  have hinj := List.map_injective_iff.mpr (Escaping.segment_injective (e := .batch) (by decide))
  unfold Link.pieces at h
  rcases List.append_eq_append_iff.mp h with ⟨ns, hS', hshown⟩ | ⟨ts, hT, -⟩
  · -- The service reaches into the segments, as far as `names`.
    obtain ⟨T, names, rfl, hT, rfl⟩ := List.map_eq_append_iff.mp hS'
    rw [← hinj hT]
    cases segments with
    | nil =>
      cases names with
      | nil =>
        rw [List.append_nil]
        exact .service List.prefix_rfl
      | cons n names =>
        obtain ⟨-, hnil⟩ := List.cons_eq_cons.mp hshown
        exact absurd (List.append_eq_nil_iff.mp hnil.symm).2 hrest
    | cons s segments =>
      obtain ⟨before, after, hsegments, hbefore, hafter⟩ := List.map_eq_append_iff.mp hshown
      have hlength : before.length = (names.map String.ofList).length := by
        simpa using congrArg List.length hbefore
      have hnamed : before = (names.map String.ofList).map Path.Segment.named := by
        rw [← map_chars_eq_iff, hbefore]
        · simp
        · intro name hname
          obtain ⟨n, hn, rfl⟩ := List.mem_map.mp hname
          have hne := hS n (List.mem_append_right _ hn)
          simpa using hne
      have hpos : 0 < after.length := by
        rw [← List.length_map (·.chars .batch), hafter]
        exact List.length_pos_of_ne_nil hrest
      refine .names (names.map String.ofList) (by simp) ?_ ?_
      · rw [hsegments, List.length_append, hlength]
        exact Nat.lt_add_of_pos_right hpos
      · rw [hsegments, ← hlength, List.take_left, hnamed]
  · obtain ⟨S', ts', hS', hmap, -⟩ := List.map_eq_append_iff.mp hT
    rw [hS', hinj hmap]
    exact .service (List.prefix_append _ _)

end

/-- The last segment makes no difference, since it is never among the names. -/
theorem Below.concat {S T : List (List Char)} {before : List Path.Segment} {s : Path.Segment}
    (h : Below S T (before ++ [s])) (s' : Path.Segment) : Below S T (before ++ [s']) := by
  cases h with
  | service h => exact .service h
  | names names h hlt htake =>
    rw [List.length_append, List.length_singleton] at hlt
    have hle : names.length ≤ before.length := Nat.le_of_lt_succ hlt
    refine .names names h ?_ ?_
    · rwa [List.length_append, List.length_singleton]
    · rw [List.take_append_of_le_length hle] at htake ⊢
      exact htake

theorem below_withParameters {S T : List (List Char)} (p : Path) (ps : Parameters) :
    Below S T (p.withParameters ps).segments ↔ Below S T p.segments := by
  obtain ⟨segments⟩ := p
  rcases List.eq_nil_or_concat segments with rfl | ⟨before, last, rfl⟩
  · constructor
    · rintro (h | ⟨names, h, hlt, -⟩)
      · exact .service h
      · have hnames : names = [] := List.eq_nil_of_length_eq_zero (Nat.lt_one_iff.mp hlt)
        rw [hnames, List.map_nil, List.append_nil] at h
        rw [h]
        exact .service List.prefix_rfl
    · rintro (h | ⟨names, -, hlt, -⟩)
      · exact .service h
      · exact absurd hlt (Nat.not_lt_zero _)
  · rw [List.concat_eq_append, Path.withParameters, List.getLast?_concat, List.dropLast_concat]
    exact ⟨fun h => h.concat last, fun h => h.concat { last with parameters := some ps }⟩

namespace Request

variable {r : Request} {e : Escaping}

/-- What is written after the names of a path is the same, but for a count. -/
theorem below_target {S T : List (List Char)} (hcount : r.operation.name ≠ "count") :
    Below S T r.target.segments ↔ Below S T r.path.segments := by
  obtain ⟨context, path, operation⟩ := r
  unfold target
  cases operation with
  | count query => exact absurd rfl hcount
  | function ps =>
    cases protocol ⟨context, path, .function ps⟩ with
    | v2 => rfl
    | v4 => exact below_withParameters path ps
  | _ => rfl

/-! ## The URI behind a service root -/

theorem isPiece_of_mem_servicePieces (he : e ≠ .none) {servicePath : List Char} {p : List Char}
    (hp : p ∈ (Link.servicePieces servicePath).map e.segment) : IsPiece p := by
  obtain ⟨q, -, rfl⟩ := List.mem_map.mp hp
  exact Escaping.isPiece_segment he q

/-- What stands behind a service root in a URI is cut into the pieces behind those of the service.
-/
theorem pieces_of_uri (he : e ≠ .none) {uri : String} (hu : r.uri e = .ok uri)
    {servicePath path : List Char}
    (h : uri.toList = Link.serviceRoot e servicePath ++ path) :
    r.pieces e =
      (Link.servicePieces servicePath).map e.segment ++ splitOn '/' (Link.pathOf path) := by
  have hroot : Link.serviceRoot e servicePath =
      ((Link.servicePieces servicePath).map e.segment).flatMap ('/' :: ·) ++ ['/'] := by
    rw [Link.serviceRoot, Link.tidy_escapePath he]
  have hquestion : '?' ∉ Link.serviceRoot e servicePath := by
    rw [hroot, List.mem_append, not_or]
    exact ⟨IsPiece.no_question_flatMap fun p hp => isPiece_of_mem_servicePieces he hp, by decide⟩
  have hpath : r.pathText e = Link.serviceRoot e servicePath ++ Link.pathOf path := by
    rw [← Link.pathOf_append_of_no_question hquestion, ← h, (of_uri_eq_ok he hu).2,
      Link.pathOf_append (no_question_pathText he r)]
  have hcut := congrArg (splitOn '/') hpath
  rw [hroot, List.append_assoc, List.singleton_append, pathText, splitOn_flatMap,
    splitOn_flatMap_append] at hcut
  · exact (List.cons_eq_cons.mp hcut).2
  · exact fun p hp => (isPiece_of_mem_servicePieces he hp).no_slash
  · exact fun p hp => (isPiece_of_mem_pieces he hp).no_slash

theorem exists_behind_root (he : e ≠ .none) {uri : String} (hu : r.uri e = .ok uri)
    {servicePath : List Char} {rest : List (List Char)} (hrest : rest ≠ [])
    (h : r.pieces e = (Link.servicePieces servicePath).map e.segment ++ rest) :
    ∃ path, uri.toList = Link.serviceRoot e servicePath ++ path := by
  obtain ⟨q, qs, rfl⟩ := List.exists_cons_of_ne_nil hrest
  refine ⟨q ++ qs.flatMap ('/' :: ·) ++ if r.query e = [] then [] else '?' :: r.query e, ?_⟩
  rw [(of_uri_eq_ok he hu).2, Link.serviceRoot, Link.tidy_escapePath he, pathText, h]
  simp

/-- **A URI begins with a service root exactly if the request is below that service.** -/
theorem behind_root_iff {uri : String} (hu : r.uri .batch = .ok uri)
    (hcount : r.operation.name ≠ "count") (servicePath : List Char) :
    (∃ path, uri.toList = Link.serviceRoot .batch servicePath ++ path) ↔
      Below (Link.servicePieces servicePath)
        (Link.servicePieces r.context.servicePath.toList) r.path.segments := by
  have hne : ∀ p ∈ Link.servicePieces servicePath, p ≠ [] := by
    intro p hp
    simpa using (List.mem_filter.mp hp).2
  rw [← below_target hcount]
  constructor
  · rintro ⟨path, h⟩
    exact below_of_pieces hne (splitOn_ne_nil '/' _) (pieces_of_uri (by decide) hu h)
  · intro h
    obtain ⟨rest, hrest, hpieces⟩ := pieces_of_below h
    exact exists_behind_root (by decide) hu hrest hpieces

end Request

/-! ## Visible characters -/

/-- The characters of ASCII that are neither blanks nor control characters. -/
def IsVisible (c : Char) : Prop := 0x20 < c.toNat ∧ c.toNat < 0x7F

instance : DecidablePred IsVisible :=
  fun c => inferInstanceAs (Decidable (0x20 < c.toNat ∧ c.toNat < 0x7F))

theorem isVisible_of_isQueryChar {c : Char} (h : Link.isQueryChar c = true) : IsVisible c := by
  have hothers : "/?:@-._~!$&'()*+,;=%".toList.all (decide <| IsVisible ·) = true := by decide
  rcases Bool.or_eq_true_iff.mp h with h | h
  · obtain ⟨hlow, hhigh⟩ := MediaType.toNat_of_isAlphanum h
    exact ⟨by omega, by omega⟩
  · exact of_decide_eq_true (List.all_eq_true.mp hothers c (List.contains_iff_mem.mp h))

theorem Escaped.visible {s : List Char} (h : Escaped s) : ∀ c ∈ s, IsVisible c :=
  fun c hc => isVisible_of_isQueryChar (h c hc)

namespace Batch

/-- The request line of an item whose path has no blanks can be taken apart. -/
theorem requestLine_of_visible {i : Item} (h : ∀ c ∈ i.resourcePath.toList, IsVisible c) :
    ∃ line, i.lines[4]? = some line ∧
      splitOn ' ' line.toList =
        [i.method.name.toList, i.resourcePath.toList, "HTTP/1.1".toList] := by
  have hpath : ' ' ∉ i.resourcePath.toList := fun hblank =>
    absurd (h _ hblank).1 (Nat.lt_irrefl 0x20)
  have hmethod : ' ' ∉ i.method.name.toList := by
    cases i.method <;> decide
  refine ⟨i.method.name ++ " " ++ i.resourcePath ++ " HTTP/1.1", rfl, ?_⟩
  have hline : (i.method.name ++ " " ++ i.resourcePath ++ " HTTP/1.1").toList =
      i.method.name.toList ++ ' ' :: (i.resourcePath.toList ++ ' ' :: "HTTP/1.1".toList) := by
    simp
  rw [hline, splitOn_append_cons hmethod, splitOn_append_cons hpath,
    splitOn_of_not_mem (by decide)]

theorem asItem_of_behind_root {b : Batch} {expected : String} {r : Request} {uri : String}
    (hname : r.operation.name = expected) (hu : r.uri .batch = .ok uri)
    (hprotocol : r.protocol = b.context.protocol) {path : List Char}
    (h : uri.toList = Link.serviceRoot .batch b.context.servicePath.toList ++ path) :
    b.asItem expected r = .ok ⟨b.nextId, r, String.ofList path⟩ := by
  unfold asItem
  dsimp only
  rw [if_neg (not_not_intro hname), hu]
  dsimp only
  rw [dropPrefix?_eq_some_iff.mpr h]
  dsimp only
  rw [if_neg (not_not_intro hprotocol)]

namespace Draft

/-- The kinds of requests for which there is a way into a batch, and into a changeset. -/
def kinds : Draft → List String
  | whole _ => ["read", "read-by-key", "function"]
  | filling _ => ["create", "update", "delete", "action"]

theorem count_not_mem_kinds (d : Draft) : "count" ∉ d.kinds := by
  cases d with
  | whole b => simp [kinds]
  | filling o => simp [kinds]

theorem add_eq_map (d : Draft) (expected : String) (r : Request) :
    ∃ put : Item → Draft, (∀ i, ((put i).batch.items, (put i).pending) = d.itemsWith i) ∧
      d.add expected r = (d.batch.asItem expected r).map put := by
  cases d with
  | whole b =>
    refine ⟨fun i => whole { b with parts := b.parts ++ [.single i], nextId := b.nextId + 1 },
      fun i => congrArg (·, []) (items_add b i), ?_⟩
    rw [add, Batch.add, batch]
    cases b.asItem expected r <;> rfl
  | filling o =>
    refine ⟨fun i => filling ⟨{ o.batch with nextId := o.batch.nextId + 1 }, o.items ++ [i]⟩,
      fun _ => rfl, ?_⟩
    rw [add, Open.add, batch]
    cases o.batch.asItem expected r <;> rfl

/-- **A request is taken in at the borders of path segments only.** A request of a fitting kind, in
the protocol of the batch and with an escaped query, is taken in exactly if it is below the service
of the batch. The item then has what follows the service root in the URI: cut at the slashes and
decoded, it is what is left of the service path and the segments of the request as they are shown;
and as it holds visible characters only, the request line is cut into its three tokens at the
blanks, whatever names and keys the request has. -/
theorem taken_iff_below (d : Draft) {expected : String} {r : Request} (hkind : expected ∈ d.kinds)
    (hname : r.operation.name = expected) (hprotocol : r.protocol = d.batch.context.protocol)
    (hquery : Link.isEscapedQuery (r.query .batch) = true) :
    let S := Link.servicePieces d.batch.context.servicePath.toList
    let T := Link.servicePieces r.context.servicePath.toList
    ((∃ d', d.add expected r = .ok d') ↔ Below S T r.path.segments) ∧
    ∀ d', d.add expected r = .ok d' → ∃ i : Item, i.request = r ∧
      (d'.batch.items, d'.pending) = d.itemsWith i ∧
      (∃ uri, r.uri .batch = .ok uri ∧ uri.toList =
        Link.serviceRoot .batch d.batch.context.servicePath.toList ++ i.resourcePath.toList) ∧
      (splitOn '/' (Link.pathOf i.resourcePath.toList)).map Percent.decode =
        (T ++ if r.shownSegments = [] then [[]] else r.shownSegments).drop S.length ∧
      (∀ c ∈ i.resourcePath.toList, IsVisible c) ∧
      ∃ line, i.lines[4]? = some line ∧ splitOn ' ' line.toList =
        [i.method.name.toList, i.resourcePath.toList, "HTTP/1.1".toList] := by
  intro S T
  have hcount : r.operation.name ≠ "count" := by
    rw [hname]
    rintro rfl
    exact d.count_not_mem_kinds hkind
  obtain ⟨put, hput, hadd⟩ := d.add_eq_map expected r
  obtain ⟨uri, hu⟩ : ∃ uri, r.uri .batch = .ok uri := by
    rw [Request.uri_eq (by decide), if_pos hquery]
    exact ⟨_, rfl⟩
  constructor
  · rw [← Request.behind_root_iff hu hcount]
    constructor
    · rintro ⟨d', hd'⟩
      rw [hadd] at hd'
      obtain ⟨i, hi, -⟩ := exists_of_map_eq_ok hd'
      obtain ⟨-, -, -, -, uri', hu', huri⟩ := asItem_eq_ok hi
      obtain rfl : uri' = uri := Except.ok.inj (hu'.symm.trans hu)
      exact ⟨_, huri⟩
    · rintro ⟨path, hpath⟩
      rw [asItem_of_behind_root hname hu hprotocol hpath] at hadd
      exact ⟨_, hadd⟩
  · intro d' hd'
    rw [hadd] at hd'
    obtain ⟨i, hi, rfl⟩ := exists_of_map_eq_ok hd'
    obtain ⟨-, -, -, hr, uri', hu', huri⟩ := asItem_eq_ok hi
    have hvisible := (escaped_of_asItem hi).visible
    refine ⟨i, hr, hput i, ⟨uri', hu', huri⟩, ?_, hvisible, requestLine_of_visible hvisible⟩
    have hpieces := Request.decode_pieces (e := .batch) (by decide) r
    rw [Request.pieces_of_uri (by decide) hu' huri, List.map_append] at hpieces
    rw [← hpieces, List.drop_left']
    rw [List.length_map, List.length_map]

/-- A batch for one set of a service, and a request that names the set itself. -/
def setBatch : Batch := .of "/my svc/People/" .v4 fun k => ⟨0, k.toUInt64⟩

def readFromSet : Request :=
  let key : Parameters := ⟨.v4, .key, [("id", .text "a b\r\nc/d")]⟩
  .readByKey "//my svc" ((Path.of "People").segment "x y") key "" .v4

theorem taken_readFromSet :
    ∃ d' i, (whole setBatch).add "read-by-key" readFromSet = .ok d' ∧ d'.batch.items = [i] ∧
      (splitOn '/' (Link.pathOf i.resourcePath.toList)).map Percent.decode =
        ["x y('a b\r\nc/d')".toList] ∧
      ' ' ∉ i.resourcePath.toList := by
  have hkind : "read-by-key" ∈ (whole setBatch).kinds := by simp [kinds]
  obtain ⟨htaken, hitem⟩ := taken_iff_below (r := readFromSet) (whole setBatch) hkind rfl rfl
    (by decide)
  obtain ⟨d', hd'⟩ := htaken.mpr (.names ["People"] (by decide) (by decide) (by decide))
  obtain ⟨i, -, hplace, -, hdecoded, hvisible, -⟩ := hitem d' hd'
  refine ⟨d', i, hd', (Prod.mk.inj hplace).1, ?_, ?_⟩
  · rw [hdecoded]
    decide
  · intro hblank
    exact absurd (hvisible _ hblank).1 (Nat.lt_irrefl 0x20)

end Draft

end Batch

end OData
