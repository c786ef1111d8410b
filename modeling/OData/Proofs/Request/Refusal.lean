import OData.Batch
import OData.Proofs.Link.Escaped

/-!
# Requests without a URI

Few texts come into a URI as the caller gives them: the query of a read, of a look-up by key and of
a count, and the names and values of the query options. All others are escaped on the way, and what
is escaped consists of the characters that an escaped query may hold. **So a request has no URI
exactly if a text that should have been escaped was not** (`uri_fails_iff`); service paths, names,
keys and parameters never are the reason.
-/

set_option autoImplicit false

namespace OData

open OData.Text

/-! ## Texts of the caller -/

/-- The query that an operation is given in escaped form. -/
def Operation.givenTexts : Operation → List (List Char)
  | .read query | .readByKey query | .count query => [query.toList]
  | _ => []

/-- The names and values of the options, which are given in escaped form. -/
def Context.givenTexts (c : Context) : List (List Char) :=
  c.options.flatMap fun (name, value) => [name.toList, value.toList]

def Request.givenTexts (r : Request) : List (List Char) :=
  r.operation.givenTexts ++ r.context.givenTexts

/-- Whether one of some texts holds a character that an escaped query cannot have. -/
def AnyUnescaped (texts : List (List Char)) : Prop :=
  ∃ t ∈ texts, ∃ c ∈ t, Link.isQueryChar c = false

instance (texts : List (List Char)) : Decidable (AnyUnescaped texts) :=
  have (t : List Char) : Decidable (∃ c ∈ t, Link.isQueryChar c = false) := List.decidableBEx _ t
  List.decidableBEx _ texts

theorem anyUnescaped_iff {texts : List (List Char)} :
    AnyUnescaped texts ↔ ¬ ∀ t ∈ texts, Escaped t := by
  simp [AnyUnescaped, Escaped]

/-! ## Queries -/

theorem escaped_optionsQuery_iff (c : Context) :
    Escaped c.optionsQuery ↔ ∀ t ∈ c.givenTexts, Escaped t := by
  have hequals : Escaped ['='] := .cons (by decide) .nil
  rw [Context.optionsQuery, Escaped.joinWith_iff (.cons (by decide) .nil), Context.givenTexts,
    List.forall_mem_flatMap, List.forall_mem_map]
  refine forall₂_congr ?_
  rintro ⟨name, value⟩ -
  dsimp only
  rw [List.forall_mem_cons, List.forall_mem_singleton, List.append_cons, Escaped.append_iff,
    Escaped.append_iff, and_iff_left hequals]

variable {e : Escaping}

theorem escaped_ownQuery_iff (he : e ≠ .none) (r : Request) :
    Escaped (r.ownQuery e) ↔ ∀ t ∈ r.operation.givenTexts, Escaped t := by
  obtain ⟨context, path, operation⟩ := r
  unfold Request.ownQuery
  cases operation with
  | read query => exact List.forall_mem_singleton.symm
  | readByKey query => exact List.forall_mem_singleton.symm
  | count query => exact List.forall_mem_singleton.symm
  | function ps =>
    -- The parameters are escaped, wherever the version of the protocol writes them.
    refine iff_of_true ?_ (by simp [Operation.givenTexts])
    cases Request.protocol ⟨context, path, .function ps⟩ with
    | v2 => exact escaped_parameters he ps .query
    | v4 => exact .nil
  | _ => exact iff_of_true .nil (by simp [Operation.givenTexts])

/-- **A query is escaped exactly if all texts of the caller in it are.** -/
theorem escaped_query_iff (he : e ≠ .none) (r : Request) :
    Escaped (r.query e) ↔ ∀ t ∈ r.givenTexts, Escaped t := by
  have hfilter : (∀ q ∈ [r.ownQuery e, r.context.optionsQuery].filter (!·.isEmpty), Escaped q) ↔
      ∀ q ∈ [r.ownQuery e, r.context.optionsQuery], Escaped q := by
    refine ⟨fun h q hq => ?_, fun h q hq => h q (List.mem_filter.mp hq).1⟩
    by_cases hempty : q = []
    · rw [hempty]
      exact .nil
    · exact h q (List.mem_filter.mpr ⟨hq, by simpa using hempty⟩)
  rw [Request.query, Escaped.joinWith_iff (.cons (by decide) .nil), hfilter, List.forall_mem_cons,
    List.forall_mem_singleton, escaped_ownQuery_iff he, escaped_optionsQuery_iff,
    Request.givenTexts, List.forall_mem_append]

/-! ## Links -/

theorem link_fails_iff (c : Context) (path query : List Char) :
    (∃ f, c.link e path query = .error f) ↔ ¬ Escaped query := by
  have hall : Link.isEscapedQuery query = true ↔ Escaped query := List.all_eq_true
  unfold Context.link Link.compose?
  dsimp only
  cases query with
  | nil => simp [Escaped.nil]
  | cons q query =>
    by_cases hquery : Escaped (q :: query)
    · simp [hall.mpr hquery, hquery]
    · simp [hall, hquery]

/-- **A request has no URI exactly if a text that the caller should have escaped holds a character
that an escaped query cannot have**, and so for batches. The parameters of a function have no part
in it. Every URI that there is consists of such characters alone. -/
theorem uri_fails_iff (he : e ≠ .none) :
    (∀ r : Request,
      ((∃ f, r.uri e = .error f) ↔ AnyUnescaped r.givenTexts) ∧
      (∀ ps, r.operation = .function ps →
        ((∃ f, r.uri e = .error f) ↔ AnyUnescaped r.context.givenTexts)) ∧
      ∀ uri, r.uri e = .ok uri → Escaped uri.toList) ∧
    ∀ b : Batch,
      ((∃ f, b.uri e = .error f) ↔ AnyUnescaped b.context.givenTexts) ∧
      ∀ uri, b.uri e = .ok uri → Escaped uri.toList := by
  constructor
  · intro r
    have hfails : (∃ f, r.uri e = .error f) ↔ AnyUnescaped r.givenTexts := by
      rw [Request.uri, link_fails_iff, escaped_query_iff he, anyUnescaped_iff]
    refine ⟨hfails, ?_, fun uri => escaped_uri he⟩
    intro ps hps
    have hown : r.operation.givenTexts = [] := by rw [hps]; rfl
    rw [hfails, Request.givenTexts, hown, List.nil_append]
  · intro b
    refine ⟨?_, fun uri => escaped_link he (escaped_path he _)⟩
    rw [Batch.uri, link_fails_iff, escaped_optionsQuery_iff, anyUnescaped_iff]

/-- A call of a function with a text that holds all kinds of characters, and an option. -/
def callWithText (option : String) : Request :=
  (Request.of "/my svc#" (.of "Find all?") .v2
    (.function ⟨.v2, .arguments, [("é&=", .text "a b#%\n\"<'")]⟩)).change (.addOption "x" option)

/-- The parameters make no difference, and a blank in the option does. -/
theorem uri_fails_iff_callWithText :
    (¬ ∃ f, (callWithText "1").uri .batch = .error f) ∧
      (∃ f, (callWithText "1 2").uri .batch = .error f) ∧
      ∃ f, ((Batch.of "/svc" .v4 fun _ => ⟨0, 0⟩).change (.addOption "ü" "")).uri .regular =
        .error f := by
  have hbatch := (uri_fails_iff (e := .batch) (by decide)).1
  have hregular := (uri_fails_iff (e := .regular) (by decide)).2
  refine ⟨?_, ?_, ?_⟩
  · rw [(hbatch (callWithText "1")).1]
    decide +kernel
  · rw [(hbatch (callWithText "1 2")).1]
    decide +kernel
  · rw [(hregular _).1]
    decide +kernel

end OData
