import OData.ServiceError
import OData.Proofs.Json.Kept

/-!
# How service errors are written

Which documents write an error is a relation: the members that mean something may come in any order
and with others between them that mean nothing, a message is a text or an object around it, and what
is empty may be left out (`IsWritten`). The older version of the protocol has the details of the
outermost error among the service's own data (`IsDocument`). `document` is one such document.

Being a document of an error is kept by everything that happens to a document while it is read: doubles
in it may change (`Spelled.reread`), the members of its objects are put in order (`Spelled.normal`),
and what means nothing is dropped (`Spelled.kept`).
-/

set_option autoImplicit false

namespace OData.ServiceError

open OData.Json OData.Text

/-! ## Errors and their documents -/

/-- The names of the members of an error that mean something. -/
def fieldNames : List String := ["code", "message", "target", "details", "innererror"]

/-- A message is a text, or an object whose only member `value` is one. -/
inductive IsMessage (message : String) : Json → Prop where
  | text : IsMessage message (.text message)
  | object {members : List (String × Json)}
      (h : members.filter (·.1 == "value") = [("value", .text message)]) :
      IsMessage message (.object members)

/-- A member that says of the error what it should, with details and own data as they are expected. -/
inductive Spells (e : ServiceError) (details : List Json → Prop)
    (inner : List (String × Json) → Prop) : String → Json → Prop where
  | code : Spells e details inner "code" (.text e.code)
  | message {v : Json} (h : IsMessage e.message v) : Spells e details inner "message" v
  | target {t : String} (h : e.target = some t) : Spells e details inner "target" (.text t)
  | details {items : List Json} (h : details items) : Spells e details inner "details" (.list items)
  | inner {members : List (String × Json)} (h : inner members) :
      Spells e details inner "innererror" (.object members)

/-- The members that an error cannot be written without. -/
def required (e : ServiceError) (details inner : Bool) : List String :=
  ["code", "message"] ++ (if e.target.isSome then ["target"] else []) ++
    (if details then ["details"] else []) ++ if inner then ["innererror"] else []

/-- The members of an object that writes the error. Those that mean something are there once. -/
structure Spelled (e : ServiceError) (details : List Json → Prop)
    (inner : List (String × Json) → Prop) (names : List String)
    (members : List (String × Json)) : Prop where
  once : ((members.map Prod.fst).filter fieldNames.contains).Nodup
  right : ∀ p ∈ members, p.1 ∈ fieldNames → Spells e details inner p.1 p.2
  all : ∀ name ∈ names, name ∈ members.map Prod.fst

mutual

/-- The value writes the error in the form that both versions of the protocol use for details. -/
def IsWritten : ServiceError → Json → Prop
  | ⟨code, message, target, details, inner⟩, .object members =>
    Spelled ⟨code, message, target, details, inner⟩ (AreWritten details)
      (fun own => (object own).normal = object inner)
      (required ⟨code, message, target, details, inner⟩ (!details.isEmpty) (!inner.isEmpty)) members
  | _, _ => False

def AreWritten : List ServiceError → List Json → Prop
  | [], [] => True
  | e :: es, v :: vs => IsWritten e v ∧ AreWritten es vs
  | _, _ => False

end

/-- The service's own data with the details among them, if there are any. -/
structure HoldsDetails (e : ServiceError) (own : List (String × Json)) : Prop where
  rest : (object (own.filter (·.1 != "errordetails"))).normal = object e.inner
  details : (∃ items, own.filter (·.1 == "errordetails") = [("errordetails", .list items)] ∧
      AreWritten e.details items) ∨
    own.filter (·.1 == "errordetails") = [] ∧ e.details = []

/-- The value writes the outermost error. -/
def IsOutermost : Protocol → ServiceError → Json → Prop
  | .v4, e, v => IsWritten e v
  | .v2, e, v => ∃ members, v = .object members ∧
    Spelled e (· = []) (HoldsDetails e)
      (required e false (!e.inner.isEmpty || !e.details.isEmpty)) members

/-- The document writes the error. -/
def IsDocument (p : Protocol) (e : ServiceError) (v : Json) : Prop :=
  ∃ members u, v = .object members ∧ members.filter (·.1 == "error") = [("error", u)] ∧
    IsOutermost p e u

/-! ## Errors with a document -/

mutual

/-- All that the services say of their own is exact and in key order. -/
def IsSound : ServiceError → Prop
  | ⟨_, _, _, details, inner⟩ =>
    (object inner).IsExact ∧ (object inner).normal = object inner ∧ AreSound details

def AreSound : List ServiceError → Prop
  | [] => True
  | e :: es => IsSound e ∧ AreSound es

end

/-- The target as a member, if there is one. -/
def targetMember (e : ServiceError) : List (String × Json) :=
  (e.target.map fun t => ("target", Json.text t)).toList

mutual

def written : ServiceError → Json
  | ⟨code, message, target, details, inner⟩ =>
    .object (("code", .text code) :: ("message", .text message) ::
      (targetMember ⟨code, message, target, details, inner⟩ ++
        [("details", .list (writtenItems details)), ("innererror", .object inner)]))

def writtenItems : List ServiceError → List Json
  | [] => []
  | e :: es => e.written :: writtenItems es

end

/-- The outermost error as each version of the protocol writes it. In the older one the message has a
language and the details are among the service's own data. -/
def outermost (lang : String) : Protocol → ServiceError → Json
  | .v4, e => e.written
  | .v2, e =>
    .object (("code", .text e.code) ::
      ("message", .object [("lang", .text lang), ("value", .text e.message)]) ::
        (e.targetMember ++
          [("innererror", .object (e.inner ++ [("errordetails", .list (writtenItems e.details))]))]))

/-- The document of an error. -/
def document (p : Protocol) (lang : String) (e : ServiceError) : Json :=
  .object [("error", outermost lang p e)]

/-! ## What becomes of a document -/

variable {e : ServiceError} {details details' : List Json → Prop}
  {inner inner' : List (String × Json) → Prop} {names : List String}
  {members : List (String × Json)}

/-- Members that come from others of the same names, and say the same, write the same. -/
theorem Spelled.transfer (h : Spelled e details inner names members)
    {members' : List (String × Json)}
    (honce : ((members'.map Prod.fst).filter fieldNames.contains).Nodup)
    (hfrom : ∀ p ∈ members', p.1 ∈ fieldNames → ∃ v, (p.1, v) ∈ members ∧
      (Spells e details inner p.1 v → Spells e details' inner' p.1 p.2))
    (hnames : ∀ name ∈ fieldNames, name ∈ members.map Prod.fst → name ∈ members'.map Prod.fst)
    (hrequired : ∀ name ∈ names, name ∈ fieldNames) :
    Spelled e details' inner' names members' where
  once := honce
  right := by
    intro p hp hname
    obtain ⟨v, hv, hspells⟩ := hfrom p hp hname
    exact hspells (h.right (p.1, v) hv hname)
  all := by
    intro name hname
    exact hnames name (hrequired name hname) (h.all name hname)

theorem mem_fieldNames_of_required {a b : Bool} {name : String} (h : name ∈ required e a b) :
    name ∈ fieldNames := by
  have hall : ∀ target : Bool, ∀ name ∈ ["code", "message"] ++
      (if target then ["target"] else []) ++ (if a then ["details"] else []) ++
        (if b then ["innererror"] else []), name ∈ fieldNames := by
    intro target
    cases target <;> cases a <;> cases b <;> decide
  exact hall _ _ h

/-! ### Doubles -/

theorem IsMessage.reread {message : String} {v : Json} (h : IsMessage message v) :
    IsMessage message v.reread := by
  cases h with
  | text => exact .text
  | @object members h =>
    refine .object ?_
    rw [rereadMembers_eq_map, List.filter_map]
    exact congrArg (List.map _) h

/-- What a member says is kept if that is so of details and own data. -/
theorem Spells.reread {name : String} {v : Json} (h : Spells e details inner name v)
    (hdetails : ∀ items, details items → details' (rereadItems items))
    (hinner : ∀ own, inner own → inner' (rereadMembers own)) :
    Spells e details' inner' name v.reread := by
  cases h with
  | code => exact .code
  | message h => exact .message h.reread
  | target h => exact .target h
  | details h => exact .details (hdetails _ h)
  | inner h => exact .inner (hinner _ h)

/-- Doubles do not stand in the names of members, so all that is required is still there. -/
theorem Spelled.reread {a b : Bool} (h : Spelled e details inner (required e a b) members)
    (hdetails : ∀ items, details items → details' (rereadItems items))
    (hinner : ∀ own, inner own → inner' (rereadMembers own)) :
    Spelled e details' inner' (required e a b) (rereadMembers members) := by
  have hsame : (rereadMembers members).map Prod.fst = members.map Prod.fst := by
    rw [rereadMembers_eq_map, List.map_map]
    rfl
  refine h.transfer ?_ ?_ ?_ fun _ => mem_fieldNames_of_required
  · rw [hsame]
    exact h.once
  · intro p hp _
    rw [rereadMembers_eq_map] at hp
    obtain ⟨q, hq, rfl⟩ := List.mem_map.mp hp
    exact ⟨q.2, hq, fun hspells => hspells.reread hdetails hinner⟩
  · intro name _ hname
    rw [hsame]
    exact hname

mutual

theorem IsWritten.reread : ∀ {e : ServiceError} {v : Json}, e.IsSound → IsWritten e v →
    IsWritten e v.reread
  | ⟨_, _, _, details, inner⟩, .object members, he, h => by
    refine Spelled.reread (h : Spelled _ _ _ _ members) (fun _ => AreWritten.reread he.2.2) ?_
    intro own hown
    show (object own).reread.normal = _
    rw [normal_reread, hown, reread_of_exact he.1]

theorem AreWritten.reread : ∀ {es : List ServiceError} {items : List Json}, AreSound es →
    AreWritten es items → AreWritten es (rereadItems items)
  | [], [], _, _ => trivial
  | _ :: _, _ :: _, he, h => ⟨h.1.reread he.1, AreWritten.reread he.2 h.2⟩

end

theorem filter_rereadMembers (keep : String → Bool) (own : List (String × Json)) :
    (rereadMembers own).filter (fun m => keep m.1) =
      rereadMembers (own.filter fun m => keep m.1) := by
  rw [rereadMembers_eq_map, rereadMembers_eq_map, List.filter_map]
  rfl

theorem isExact_of_isSound : ∀ {e : ServiceError}, e.IsSound → (object e.inner).IsExact
  | ⟨_, _, _, _, _⟩, h => h.1

theorem normal_of_isSound : ∀ {e : ServiceError}, e.IsSound →
    (object e.inner).normal = object e.inner
  | ⟨_, _, _, _, _⟩, h => h.2.1

theorem areSound_of_isSound : ∀ {e : ServiceError}, e.IsSound → AreSound e.details
  | ⟨_, _, _, _, _⟩, h => h.2.2

theorem HoldsDetails.reread {own : List (String × Json)} (he : e.IsSound)
    (h : HoldsDetails e own) : HoldsDetails e (rereadMembers own) where
  rest := by
    rw [filter_rereadMembers (· != "errordetails")]
    show (object (own.filter (·.1 != "errordetails"))).reread.normal = _
    rw [normal_reread, h.rest, reread_of_exact (isExact_of_isSound he)]
  details := by
    rw [filter_rereadMembers (· == "errordetails")]
    rcases h.details with ⟨items, hitems, hwritten⟩ | ⟨hnone, hdetails⟩
    · refine .inl ⟨rereadItems items, ?_, hwritten.reread (areSound_of_isSound he)⟩
      exact congrArg rereadMembers hitems
    · exact .inr ⟨congrArg rereadMembers hnone, hdetails⟩

/-- **Doubles may change in an error that is written.** -/
theorem IsOutermost.reread {p : Protocol} {v : Json} (he : e.IsSound) (h : IsOutermost p e v) :
    IsOutermost p e v.reread := by
  cases p with
  | v4 => exact IsWritten.reread he h
  | v2 =>
    obtain ⟨members, rfl, h⟩ := h
    refine ⟨rereadMembers members, rfl, h.reread ?_ fun own hown => hown.reread he⟩
    rintro items rfl
    rfl

/-! ### Order -/

theorem IsMessage.normal {message : String} {v : Json} (h : IsMessage message v) :
    IsMessage message v.normal := by
  cases h with
  | text => exact .text
  | @object members h =>
    rw [Json.normal]
    refine .object ?_
    rw [filter_keyOrdered (· == "value"), normalMembers_eq_map, List.filter_map]
    show keyOrdered (List.map _ (members.filter (·.1 == "value"))) = _
    rw [h]
    rfl

theorem Spells.normal {name : String} {v : Json} (h : Spells e details inner name v)
    (hdetails : ∀ items, details items → details' (normalItems items))
    (hinner : ∀ own, inner own → inner' (keyOrdered (normalMembers own))) :
    Spells e details' inner' name v.normal := by
  cases h with
  | code => exact .code
  | message h => exact .message h.normal
  | target h => exact .target h
  | details h => exact .details (hdetails _ h)
  | inner h => exact .inner (hinner _ h)

/-- Members in key order have the same names, each of them once. -/
theorem Spelled.normal {a b : Bool} (h : Spelled e details inner (required e a b) members)
    (hdetails : ∀ items, details items → details' (normalItems items))
    (hinner : ∀ own, inner own → inner' (keyOrdered (normalMembers own))) :
    Spelled e details' inner' (required e a b) (keyOrdered (normalMembers members)) := by
  refine h.transfer ?_ ?_ ?_ fun _ => mem_fieldNames_of_required
  · exact (ascending_keyOrdered _).nodup.filter _
  · intro p hp _
    have hp := mem_of_mem_keyOrdered hp
    rw [normalMembers_eq_map] at hp
    obtain ⟨q, hq, rfl⟩ := List.mem_map.mp hp
    exact ⟨q.2, hq, fun hspells => hspells.normal hdetails hinner⟩
  · intro name _ hname
    refine mem_keys_keyOrdered ?_
    rw [normalMembers_eq_map, List.map_map]
    exact hname

mutual

theorem IsWritten.normal : ∀ {e : ServiceError} {v : Json}, IsWritten e v → IsWritten e v.normal
  | ⟨_, _, _, details, inner⟩, .object members, h => by
    refine Spelled.normal (h : Spelled _ _ _ _ members) (fun _ => AreWritten.normal) ?_
    intro own hown
    show (object own).normal.normal = _
    rw [normal_normal, hown]

theorem AreWritten.normal : ∀ {es : List ServiceError} {items : List Json},
    AreWritten es items → AreWritten es (normalItems items)
  | [], [], _ => trivial
  | _ :: _, _ :: _, h => ⟨h.1.normal, AreWritten.normal h.2⟩

end

/-! ### What means nothing -/

theorem isSome_fieldOf?_error (name : String) :
    (fieldOf? (schema .error) name).isSome = fieldNames.contains name :=
  isSome_fieldOf? (schema .error) name

/-- A member that means something is a known field, and what is kept of it says the same. -/
theorem Spells.kept {name : String} {v : Json} (h : Spells e details inner name v)
    (hdetails : ∀ items, details items →
      ∃ kept, keepItems? schema (.record .error) items = some kept ∧ details' kept) :
    ∃ f u, fieldOf? (schema .error) name = some f ∧ keep? schema f.shape v = some u ∧
      Spells e details' inner name u := by
  cases h with
  | code => exact ⟨_, _, rfl, rfl, .code⟩
  | message h => exact ⟨_, _, rfl, keep?_any _, .message h⟩
  | target h => exact ⟨_, _, rfl, rfl, .target h⟩
  | details h =>
    obtain ⟨kept, hkept, h⟩ := hdetails _ h
    refine ⟨_, .list kept, rfl, ?_, .details h⟩
    show (keepItems? schema (.record .error) _).map Json.list = _
    rw [hkept]
    rfl
  | inner h => exact ⟨_, _, rfl, rfl, .inner h⟩

theorem keys_known (members : List (String × Json)) :
    (known (schema .error) members).map Prod.fst =
      (members.map Prod.fst).filter fieldNames.contains := by
  rw [known, List.filter_map]
  exact congrArg (fun keep => (members.filter keep).map Prod.fst)
    (funext fun p => isSome_fieldOf?_error p.1)

/-- **An error that is written is kept as a record that writes it too.** -/
theorem Spelled.kept {a b : Bool} (h : Spelled e details inner (required e a b) members)
    (hdetails : ∀ items, details items →
      ∃ kept, keepItems? schema (.record .error) items = some kept ∧ details' kept) :
    ∃ kept, keep? schema (.record .error) (.object members) = some (.object kept) ∧
      Spelled e details' inner (required e a b) kept := by
  have hfield : ∀ p ∈ members, ∀ f, fieldOf? (schema .error) p.1 = some f →
      ∃ u, keep? schema f.shape p.2 = some u ∧ Spells e details' inner p.1 u := by
    intro p hp f hf
    have hname : p.1 ∈ fieldNames := by
      rw [← List.contains_iff_mem, ← isSome_fieldOf?_error, hf]
      rfl
    obtain ⟨f', u, hf', hu, hspells⟩ := (h.right p hp hname).kept hdetails
    obtain rfl : f' = f := Option.some.inj (hf'.symm.trans hf)
    exact ⟨u, hu, hspells⟩
  have hkeep : ∀ p ∈ members, ∀ f, fieldOf? (schema .error) p.1 = some f →
      ∃ u, keep? schema f.shape p.2 = some u := by
    intro p hp f hf
    obtain ⟨u, hu, -⟩ := hfield p hp f hf
    exact ⟨u, hu⟩
  have honce : ((known (schema .error) members).map Prod.fst).Nodup := by
    rw [keys_known]
    exact h.once
  have hsame : ((known (schema .error) members).map fun m =>
      (m.1, keptAs schema (schema .error) m.1 m.2)).map Prod.fst =
        (known (schema .error) members).map Prod.fst := by
    rw [List.map_map]
    rfl
  refine ⟨(known (schema .error) members).map fun m => (m.1, keptAs schema (schema .error) m.1 m.2),
    ?_, h.transfer ?_ ?_ ?_ fun _ => mem_fieldNames_of_required⟩
  · show (keepMembers? schema (schema .error) [] members).bind _ = _
    rw [keepMembers?_eq [] hkeep honce]
    rfl
  · rw [hsame, keys_known]
    exact h.once.filter _
  · intro p hp _
    obtain ⟨q, hq, rfl⟩ := List.mem_map.mp hp
    obtain ⟨hq, hsome⟩ := List.mem_filter.mp hq
    obtain ⟨f, hf⟩ := Option.isSome_iff_exists.mp hsome
    obtain ⟨u, hu, hspells⟩ := hfield q hq f hf
    refine ⟨q.2, hq, fun _ => ?_⟩
    show Spells e details' inner q.1 (keptAs schema (schema .error) q.1 q.2)
    rw [keptAs_of_keep? hf hu]
    exact hspells
  · intro name hname hmem
    rw [hsame, keys_known]
    exact List.mem_filter.mpr ⟨hmem, List.contains_iff_mem.mpr hname⟩

mutual

/-- With its details, an error that is written is kept as one that is written. -/
theorem keep?_of_isWritten : ∀ {e : ServiceError} {v : Json}, IsWritten e v →
    ∃ w, keep? schema (.record .error) v = some w ∧ IsWritten e w
  | ⟨_, _, _, details, inner⟩, .object members, h => by
    obtain ⟨kept, hkept, h⟩ := Spelled.kept (h : Spelled _ _ _ _ members)
      fun _ => keepItems?_of_areWritten
    exact ⟨.object kept, hkept, h⟩

theorem keepItems?_of_areWritten : ∀ {es : List ServiceError} {items : List Json},
    AreWritten es items →
    ∃ kept, keepItems? schema (.record .error) items = some kept ∧ AreWritten es kept
  | [], [], _ => ⟨[], rfl, trivial⟩
  | _ :: _, _ :: _, h => by
    obtain ⟨w, hw, hwritten⟩ := keep?_of_isWritten h.1
    obtain ⟨kept, hkept, hrest⟩ := keepItems?_of_areWritten h.2
    refine ⟨w :: kept, ?_, hwritten, hrest⟩
    rw [keepItems?, hw, Option.bind_some, hkept]
    rfl

end

/-! ## Every sound error has a document -/

theorem keys_targetMember (e : ServiceError) :
    e.targetMember.map Prod.fst = if e.target.isSome then ["target"] else [] := by
  unfold targetMember
  cases e.target <;> rfl

/-- Code, message and target spell themselves; what comes after them has to be right. -/
theorem spelled_of_rest {message : Json} (hmessage : IsMessage e.message message)
    {rest : List (String × Json)} {a b : Bool}
    (hrest : ∀ p ∈ rest, Spells e details inner p.1 p.2)
    (hkeys : rest.map Prod.fst = (if a then ["details"] else []) ++ if b then ["innererror"] else []) :
    Spelled e details inner (required e a b)
      (("code", .text e.code) :: ("message", message) :: (e.targetMember ++ rest)) := by
  have hnames : (("code", Json.text e.code) :: ("message", message) ::
      (e.targetMember ++ rest)).map Prod.fst = required e a b := by
    rw [List.map_cons, List.map_cons, List.map_append, keys_targetMember, hkeys]
    unfold required
    rw [List.append_assoc, List.append_assoc]
    rfl
  refine ⟨?_, ?_, ?_⟩
  · rw [hnames]
    have hall : ∀ target : Bool, (["code", "message"] ++ (if target then ["target"] else []) ++
        (if a then ["details"] else []) ++ if b then ["innererror"] else []).Nodup := by
      intro target
      cases target <;> cases a <;> cases b <;> decide
    exact (hall e.target.isSome).filter _
  · intro p hp _
    rcases List.mem_cons.mp hp with rfl | hp
    · exact .code
    rcases List.mem_cons.mp hp with rfl | hp
    · exact .message hmessage
    rcases List.mem_append.mp hp with hp | hp
    · unfold targetMember at hp
      obtain ⟨t, ht, rfl⟩ := Option.map_eq_some_iff.mp (Option.mem_toList.mp hp)
      exact .target ht
    · exact hrest p hp
  · intro name hname
    rw [hnames]
    exact hname

/-- A member that may be left out does no harm. -/
theorem spelled_mono {a b a' b' : Bool} (h : Spelled e details inner (required e a b) members)
    (ha : a' = true → a = true) (hb : b' = true → b = true) :
    Spelled e details inner (required e a' b') members := by
  refine ⟨h.once, h.right, fun name hname => h.all name ?_⟩
  simp only [required, List.mem_append] at hname ⊢
  rcases hname with (hname | hname) | hname
  · exact .inl (.inl hname)
  · split at hname
    · next htrue =>
      rw [if_pos (ha htrue)]
      exact .inl (.inr hname)
    · cases hname
  · split at hname
    · next htrue =>
      rw [if_pos (hb htrue)]
      exact .inr hname
    · cases hname

mutual

/-- A sound error is written with all of its members, the empty ones too. -/
theorem isWritten_written : ∀ {e : ServiceError}, e.IsSound → IsWritten e e.written
  | ⟨code, message, target, details, inner⟩, h => by
    refine spelled_mono (a := true) (b := true) (spelled_of_rest .text ?_ rfl) (fun _ => rfl)
      fun _ => rfl
    intro p hp
    rcases List.mem_cons.mp hp with rfl | hp
    · exact .details (areWritten_writtenItems h.2.2)
    · rw [List.mem_singleton.mp hp]
      exact .inner h.2.1

theorem areWritten_writtenItems : ∀ {es : List ServiceError}, AreSound es →
    AreWritten es (writtenItems es)
  | [], _ => trivial
  | _ :: _, h => ⟨isWritten_written h.1, areWritten_writtenItems h.2⟩

end

theorem isNative_targetMember (e : ServiceError) : ∀ m ∈ e.targetMember, m.2.IsNative := by
  intro m hm
  obtain ⟨t, -, rfl⟩ := Option.map_eq_some_iff.mp (Option.mem_toList.mp hm)
  trivial

mutual

theorem isNative_written : ∀ {e : ServiceError}, e.IsSound → e.written.IsNative
  | ⟨code, message, target, details, inner⟩, h => by
    have hdetails : (list (writtenItems details)).IsNative := isNative_writtenItems h.2.2
    refine ⟨trivial, trivial, everyMember_iff.mpr ?_⟩
    intro m hm
    rcases List.mem_append.mp hm with hm | hm
    · exact isNative_targetMember _ m hm
    rcases List.mem_cons.mp hm with rfl | hm
    · exact hdetails
    · rw [List.mem_singleton.mp hm]
      exact h.1.isNative

theorem isNative_writtenItems : ∀ {es : List ServiceError}, AreSound es →
    (list (writtenItems es)).IsNative
  | [], _ => trivial
  | _ :: _, h => ⟨isNative_written h.1, isNative_writtenItems h.2⟩

end

theorem isNative_document (p : Protocol) (lang : String) (he : e.IsSound) :
    (document p lang e).IsNative := by
  refine ⟨?_, trivial⟩
  cases p with
  | v4 => exact isNative_written he
  | v2 =>
    refine ⟨trivial, ⟨trivial, trivial, trivial⟩, everyMember_iff.mpr ?_⟩
    intro m hm
    rcases List.mem_append.mp hm with hm | hm
    · exact isNative_targetMember e m hm
    · rw [List.mem_singleton.mp hm]
      refine everyMember_iff.mpr fun m hm => ?_
      rcases List.mem_append.mp hm with hm | hm
      · exact everyMember_iff.mp (isExact_of_isSound he).isNative m hm
      · rw [List.mem_singleton.mp hm]
        exact isNative_writtenItems (areSound_of_isSound he)

/-- **Every sound error has a document**, unless the older version would take part of its own data
for details. -/
theorem isDocument_document {p : Protocol} (lang : String) (he : e.IsSound)
    (hown : p = .v2 → "errordetails" ∉ e.inner.map Prod.fst) :
    IsDocument p e (document p lang e) := by
  refine ⟨_, outermost lang p e, rfl, rfl, ?_⟩
  cases p with
  | v4 => exact isWritten_written he
  | v2 =>
    have hnone : ∀ m ∈ e.inner, m.1 ≠ "errordetails" := by
      intro m hm hname
      exact hown rfl (hname ▸ List.mem_map_of_mem hm)
    refine ⟨_, rfl, spelled_mono (a := false) (b := true) (spelled_of_rest (.object rfl) ?_ rfl) id
      fun _ => rfl⟩
    intro m hm
    rw [List.mem_singleton.mp hm]
    refine .inner ⟨?_, .inl ⟨writtenItems e.details, ?_,
      areWritten_writtenItems (areSound_of_isSound he)⟩⟩
    · rw [List.filter_append, List.filter_eq_self.mpr (by simpa using hnone)]
      exact (congrArg (fun own => (object own).normal) (List.append_nil _)).trans
        (normal_of_isSound he)
    · rw [List.filter_append, List.filter_eq_nil_iff.mpr (by simpa using hnone)]
      rfl

end OData.ServiceError
