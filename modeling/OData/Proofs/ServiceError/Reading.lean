import Mathlib.Data.List.Nodup
import OData.Proofs.Json.Written
import OData.Proofs.ServiceError.Spelling

/-!
# Service errors are read back

The members of an error object set the fields that they name (`ofMembers?_of_spells`), so what writes
an error is read as that error (`ofRecord?_of_isWritten`). Where the older version of the protocol
keeps the details among the service's own data, they are put in their place and taken out of the data
(`lift_of_holdsDetails`). **Every service error is read back from any document that writes it**
(`parse?_document`).
-/

set_option autoImplicit false

namespace OData.ServiceError

open OData.Json OData.Text

variable {e : ServiceError} {details : List Json → Prop} {inner : List (String × Json) → Prop}
  {members : List (String × Json)}

/-! ## From members to fields -/

theorem message?_of_isMessage {message : String} {v : Json} (h : IsMessage message v) :
    message? v = some (some message) := by
  cases h with
  | text => rfl
  | object h =>
    unfold message?
    dsimp only
    rw [h]

/-- `e₀` with the fields of `e` that are named. -/
def overlay (names : List String) (e e₀ : ServiceError) : ServiceError where
  code := if "code" ∈ names then e.code else e₀.code
  message := if "message" ∈ names then e.message else e₀.message
  target := if "target" ∈ names then e.target else e₀.target
  details := if "details" ∈ names then e.details else e₀.details
  inner := if "innererror" ∈ names then e.inner else e₀.inner

theorem ofMembers?_unknown {name : String} (h : name ∉ fieldNames) (v : Json)
    (members : List (String × Json)) (e₀ : ServiceError) :
    ofMembers? ((name, v) :: members) e₀ = ofMembers? members e₀ := by
  simp only [fieldNames, List.mem_cons, List.not_mem_nil, or_false, not_or] at h
  obtain ⟨hcode, hmessage, htarget, hdetails, hinner⟩ := h
  rw [ofMembers?]
  all_goals
    intros
    contradiction

theorem overlay_unknown {name : String} (h : name ∉ fieldNames) (names : List String)
    (e₀ : ServiceError) : overlay (name :: names) e e₀ = overlay names e e₀ := by
  simp only [fieldNames, List.mem_cons, List.not_mem_nil, or_false, not_or] at h
  obtain ⟨hcode, hmessage, htarget, hdetails, hinner⟩ := h
  simp only [overlay, List.mem_cons, Ne.symm hcode, Ne.symm hmessage, Ne.symm htarget,
    Ne.symm hdetails, Ne.symm hinner, false_or]

/-- **Members that spell an error set its fields**, and leave those alone that they do not name. -/
theorem ofMembers?_of_spells
    (h : ∀ p ∈ members, p.1 ∈ fieldNames → Spells e details inner p.1 p.2)
    (hdetails : ∀ items, details items → ofRecords? items = some e.details)
    (hinner : ∀ own, inner own → (object own).normal = object e.inner) (e₀ : ServiceError) :
    ofMembers? members e₀ = some (overlay (members.map Prod.fst) e e₀) := by
  induction members generalizing e₀ with
  | nil =>
    cases e₀
    rw [ofMembers?]
    simp [overlay]
  | cons p members ih =>
    obtain ⟨name, v⟩ := p
    obtain ⟨hp, hmembers⟩ := List.forall_mem_cons.mp h
    show ofMembers? ((name, v) :: members) e₀ = some (overlay (name :: members.map Prod.fst) e e₀)
    by_cases hname : name ∈ fieldNames
    · -- A field that is named once more further on says the same, so the order does not matter.
      have hspells : Spells e details inner name v := hp hname
      cases hspells with
      | code =>
        rw [ofMembers?, ih hmembers]
        simp [overlay, -List.mem_map]
      | message hv =>
        rw [ofMembers?, message?_of_isMessage hv, Option.bind_some, ih hmembers]
        simp [overlay, -List.mem_map]
      | target ht =>
        rw [ofMembers?, ih hmembers]
        simp [overlay, ht, -List.mem_map]
      | details hitems =>
        rw [ofMembers?, hdetails _ hitems, Option.bind_some, ih hmembers]
        simp [overlay, -List.mem_map]
      | inner hown =>
        rw [ofMembers?, hinner _ hown]
        dsimp only
        rw [ih hmembers]
        simp [overlay, -List.mem_map]
    · rw [ofMembers?_unknown hname, overlay_unknown hname, ih hmembers]

/-- What is required of an error is all of it. -/
theorem overlay_of_required {a b : Bool} {names : List String}
    (h : ∀ name ∈ required e a b, name ∈ names) (hdetails : "details" ∈ names ∨ e.details = [])
    (hinner : "innererror" ∈ names ∨ e.inner = []) : overlay names e (of "" "" none) = e := by
  have hcode : "code" ∈ names := h _ (by simp [required])
  have hmessage : "message" ∈ names := h _ (by simp [required])
  have htarget : "target" ∈ names ∨ e.target = none := by
    cases ht : e.target with
    | none => exact .inr rfl
    | some t => exact .inl (h _ (by simp [required, ht]))
  obtain ⟨code, message, target, details, inner⟩ := e
  unfold overlay of
  rw [if_pos hcode, if_pos hmessage]
  congr 1
  · rcases htarget with h | rfl
    · rw [if_pos h]
    · exact ite_self none
  · rcases hdetails with h | rfl
    · rw [if_pos h]
    · exact ite_self []
  · rcases hinner with h | rfl
    · rw [if_pos h]
    · exact ite_self []

/-- What is needed unless it is empty is there or empty. -/
theorem mem_or_eq_nil {α : Type} {names : List String} {name : String} {xs : List α}
    (h : (!xs.isEmpty) = true → name ∈ names) : name ∈ names ∨ xs = [] := by
  cases xs with
  | nil => exact .inr rfl
  | cons x xs => exact .inl (h rfl)

mutual

/-- **An error is read from what writes it.** -/
theorem ofRecord?_of_isWritten : ∀ {e : ServiceError} {v : Json}, IsWritten e v →
    ofRecord? v = some e
  | ⟨code, message, target, details, inner⟩, .object members, h => by
    have h : Spelled _ _ _ _ members := h
    rw [ofRecord?, ofMembers?_of_spells h.right (fun _ => ofRecords?_of_areWritten) fun _ => id]
    refine congrArg some (overlay_of_required h.all ?_ ?_)
    · refine mem_or_eq_nil fun hne => h.all _ ?_
      simp [required, hne]
    · refine mem_or_eq_nil fun hne => h.all _ ?_
      simp [required, hne]

theorem ofRecords?_of_areWritten : ∀ {es : List ServiceError} {items : List Json},
    AreWritten es items → ofRecords? items = some es
  | [], [], _ => rfl
  | _ :: _, _ :: _, h => by
    rw [ofRecords?, ofRecord?_of_isWritten h.1, Option.bind_some, ofRecords?_of_areWritten h.2]
    rfl

end

/-! ## Details among other data -/

/-- Details are found in any values that write them. -/
theorem filterMap_of_areWritten {es : List ServiceError} {items : List Json}
    (h : AreWritten es items) :
    items.filterMap (fun item => (fit? schema (.record .error) item).bind ofRecord?) = es := by
  induction items generalizing es with
  | nil =>
    cases es with
    | nil => rfl
    | cons => cases h
  | cons v items ih =>
    cases es with
    | nil => cases h
    | cons e es =>
      obtain ⟨w, hw, hwritten⟩ := keep?_of_isWritten h.1
      have hv : (fit? schema (.record .error) v).bind ofRecord? = some e := by
        rw [fit?_of_keep? hw, Option.bind_some, ofRecord?_of_isWritten hwritten]
      rw [List.filterMap_cons, hv, ih h.2]

theorem filter_normal (keep : String → Bool) {own own' : List (String × Json)}
    (h : (object own).normal = object own') :
    (object (own.filter fun m => keep m.1)).normal = object (own'.filter fun m => keep m.1) := by
  rw [Json.normal] at h
  cases h
  rw [Json.normal, filter_keyOrdered, normalMembers_eq_map, normalMembers_eq_map, List.filter_map]
  rfl

/-- **The details are where the newer version has them** once they have been lifted, and the rest of
the data is the error's own. -/
theorem lift_of_holdsDetails {own own' : List (String × Json)} (h : HoldsDetails e own)
    (hown : (object own).normal = object own') :
    lift { e with details := [], inner := own' } = e := by
  have hrest : own'.filter (·.1 != "errordetails") = e.inner := by
    have hfilter := filter_normal (· != "errordetails") hown
    exact (Json.object.inj (h.rest.symm.trans hfilter)).symm
  have hfound : liftedDetails own' = e.details := by
    have hfilter := filter_normal (· == "errordetails") hown
    unfold liftedDetails
    rw [← List.head?_filter]
    rcases h.details with ⟨items, hitems, hwritten⟩ | ⟨hnone, hdetails⟩
    · rw [hitems] at hfilter
      have hsingle : own'.filter (·.1 == "errordetails") =
          [("errordetails", .list (normalItems items))] := (Json.object.inj hfilter).symm
      rw [hsingle]
      exact filterMap_of_areWritten hwritten.normal
    · rw [hnone] at hfilter
      have hempty : own'.filter (·.1 == "errordetails") = [] := (Json.object.inj hfilter).symm
      rw [hempty, hdetails]
      rfl
  obtain ⟨code, message, target, details, inner⟩ := e
  simp only [lift, List.isEmpty_nil, if_true, hfound, hrest]

/-- Members that spell one error spell any other of the same code, message and target. -/
theorem Spells.congr {name : String} {v : Json} (h : Spells e details inner name v)
    {e' : ServiceError} (hcode : e'.code = e.code) (hmessage : e'.message = e.message)
    (htarget : e'.target = e.target) {inner' : List (String × Json) → Prop}
    (hinner : ∀ own, name = "innererror" → v = .object own → inner own → inner' own) :
    Spells e' details inner' name v := by
  cases h with
  | code =>
    rw [← hcode]
    exact .code
  | message h =>
    rw [← hmessage] at h
    exact .message h
  | target h => exact .target (htarget.trans h)
  | details h => exact .details h
  | inner h => exact .inner (hinner _ rfl rfl h)

theorem Spells.of_code {name : String} {v : Json} (h : Spells e details inner name v)
    (hname : name = "code") : v = .text e.code := by
  cases h with
  | code => rfl
  | _ => exact absurd hname (by decide)

theorem Spells.of_inner {name : String} {v : Json} (h : Spells e details inner name v)
    (hname : name = "innererror") : ∃ own, v = .object own ∧ inner own := by
  cases h with
  | inner h => exact ⟨_, rfl, h⟩
  | _ => exact absurd hname (by decide)

/-- A member that means something has one value. -/
theorem Spelled.unique {names : List String} (h : Spelled e details inner names members)
    {name : String} (hname : name ∈ fieldNames) {u v : Json} (hu : (name, u) ∈ members)
    (hv : (name, v) ∈ members) : u = v := by
  have honce := h.once
  rw [List.filter_map] at honce
  have hmem : ∀ {w : Json}, (name, w) ∈ members →
      (name, w) ∈ members.filter (fieldNames.contains ∘ Prod.fst) :=
    fun hw => List.mem_filter.mpr ⟨hw, List.contains_iff_mem.mpr hname⟩
  exact congrArg Prod.snd (List.inj_on_of_nodup_map honce (hmem hu) (hmem hv) rfl)

/-- An error with data of the service's own, which may hold the details. -/
theorem lift_of_spelled_inner {names : List String} {own : List (String × Json)}
    (h : Spelled e (· = []) (HoldsDetails e) names members)
    (hall : ∀ name ∈ required e false false, name ∈ members.map Prod.fst)
    (hv : ("innererror", .object own) ∈ members) (hown : HoldsDetails e own) :
    ∃ raw, ofRecord? (.object members) = some raw ∧ raw.lift = e := by
  have hfield : "innererror" ∈ fieldNames := by decide
  obtain ⟨own', hown'⟩ : ∃ own', (object own).normal = object own' := ⟨_, by rw [Json.normal]⟩
  let raw : ServiceError := { e with details := [], inner := own' }
  refine ⟨raw, ?_, lift_of_holdsDetails hown hown'⟩
  have hspells : ∀ p ∈ members, p.1 ∈ fieldNames → Spells raw (· = []) (· = own) p.1 p.2 := by
    intro p hp hpname
    refine (h.right p hp hpname).congr (rfl : raw.code = e.code) rfl rfl ?_
    intro own₂ hp1 hp2 _
    have hsame := h.unique hfield hv (show ("innererror", object own₂) ∈ members by
      rw [← hp1, ← hp2]
      exact hp)
    exact (Json.object.inj hsame).symm
  have hdetails : ∀ items : List Json, items = [] → ofRecords? items = some [] := by
    rintro items rfl
    rfl
  have hinner : ∀ own₂, own₂ = own → (object own₂).normal = object raw.inner := by
    rintro _ rfl
    exact hown'
  rw [ofRecord?, ofMembers?_of_spells hspells hdetails hinner]
  exact congrArg some
    (overlay_of_required (e := raw) hall (.inr rfl) (.inl (List.mem_map_of_mem hv)))

/-- An error without data of the service's own, and so without details. -/
theorem lift_of_spelled_bare {names : List String}
    (h : Spelled e (· = []) (HoldsDetails e) names members)
    (hall : ∀ name ∈ required e false false, name ∈ members.map Prod.fst)
    (hname : "innererror" ∉ members.map Prod.fst) (hinner : e.inner = []) (hdetails : e.details = []) :
    ∃ raw, ofRecord? (.object members) = some raw ∧ raw.lift = e := by
  obtain ⟨code, message, target, details, inner⟩ := e
  obtain rfl : inner = [] := hinner
  obtain rfl : details = [] := hdetails
  refine ⟨⟨code, message, target, [], []⟩, ?_, rfl⟩
  have hnone : ∀ items : List Json, items = [] → ofRecords? items = some [] := by
    rintro items rfl
    rfl
  have hspells : ∀ p ∈ members, p.1 ∈ fieldNames →
      Spells ⟨code, message, target, [], []⟩ (· = []) (fun _ => False) p.1 p.2 := by
    intro p hp hpname
    refine (h.right p hp hpname).congr rfl rfl rfl ?_
    intro own hp1 _ _
    exact hname (hp1 ▸ List.mem_map_of_mem hp)
  rw [ofRecord?, ofMembers?_of_spells hspells hnone fun _ => False.elim]
  exact congrArg some (overlay_of_required hall (.inr rfl) (.inr rfl))

/-- **The outermost error of the older version** is read, once its details have been lifted. -/
theorem lift_of_spelled
    (h : Spelled e (· = []) (HoldsDetails e)
      (required e false (!e.inner.isEmpty || !e.details.isEmpty)) members) :
    ∃ raw, ofRecord? (.object members) = some raw ∧ raw.lift = e := by
  have hall : ∀ name ∈ required e false false, name ∈ members.map Prod.fst :=
    (spelled_mono h id fun hfalse => absurd hfalse Bool.false_ne_true).all
  by_cases hname : "innererror" ∈ members.map Prod.fst
  · obtain ⟨⟨_, v⟩, hv, rfl⟩ := List.mem_map.mp hname
    have hfield : "innererror" ∈ fieldNames := by decide
    obtain ⟨own, rfl, hown⟩ := (h.right _ hv hfield).of_inner rfl
    exact lift_of_spelled_inner h hall hv hown
  · have hfalse : ¬ (!e.inner.isEmpty || !e.details.isEmpty) = true := by
      intro htrue
      exact hname (h.all _ (by simp only [required, htrue]; simp))
    obtain ⟨hinner, hdetails⟩ : e.inner = [] ∧ e.details = [] := by simpa using hfalse
    exact lift_of_spelled_bare h hall hname hinner hdetails

/-! ## Documents -/

theorem has_code {names : List String} (h : Spelled e details inner names members)
    (hcode : "code" ∈ names) : has "code" (.object members) = true := by
  obtain ⟨⟨_, v⟩, hv, rfl⟩ := List.mem_map.mp (h.all _ hcode)
  have hsome : ((object members).member? "code").isSome = true := by
    show ((members.reverse.find? (·.1 == "code")).map Prod.snd).isSome = true
    rw [Option.isSome_map, List.find?_isSome]
    exact ⟨_, List.mem_reverse.mpr hv, beq_self_eq_true _⟩
  obtain ⟨u, hu⟩ := Option.isSome_iff_exists.mp hsome
  have hfield : "code" ∈ fieldNames := by decide
  have htext : u = .text e.code := (h.right _ (mem_of_lastOf? hu) hfield).of_code rfl
  unfold has
  rw [hu, htext]
  rfl

/-- **The outermost error is kept as a record with a code, and the error is read from that.** -/
theorem keep?_of_isOutermost {p : Protocol} {v : Json} (h : IsOutermost p e v) :
    ∃ w raw, keep? schema (.record .error) v = some w ∧ has "code" w = true ∧
      ofRecord? w = some raw ∧ (match p with
        | .v2 => raw.lift
        | .v4 => raw) = e := by
  cases p with
  | v2 =>
    obtain ⟨members, rfl, h⟩ := h
    have hnone : ∀ items : List Json, items = [] →
        ∃ kept, keepItems? schema (.record .error) items = some kept ∧ kept = [] := by
      rintro items rfl
      exact ⟨[], rfl, rfl⟩
    obtain ⟨kept, hkept, hspelled⟩ := h.kept hnone
    obtain ⟨raw, hraw, hlift⟩ := lift_of_spelled hspelled
    exact ⟨_, raw, hkept, has_code hspelled (by simp [required]), hraw, hlift⟩
  | v4 =>
    obtain ⟨w, hw, hwritten⟩ := keep?_of_isWritten h
    refine ⟨w, e, hw, ?_, ofRecord?_of_isWritten hwritten, rfl⟩
    obtain ⟨code, message, target, details, inner⟩ := e
    cases w with
    | object members => exact has_code hwritten (by simp [required])
    | _ => cases hwritten

/-- What is kept of the document is nested within the limit; what is passed over may be deeper. -/
def WithinLimit (v : Json) : Prop :=
  ∀ w, keep? schema (.record .document) v.reread = some w → w.depth ≤ Machine.depthLimit

theorem withinLimit_of_depth_le {v : Json} (h : v.depth ≤ Machine.depthLimit) : WithinLimit v := by
  intro w hw
  refine Nat.le_trans (depth_le_of_keep? hw) ?_
  rw [depth_reread]
  exact h

/-- Of a document nothing but its error is kept. -/
theorem keep?_document {u w : Json} (hu : members.filter (·.1 == "error") = [("error", u)])
    (hw : keep? schema (.record .error) u = some w) :
    keep? schema (.record .document) (.object members) = some (.object [("error", w)]) := by
  have hknown : known (schema .document) members = [("error", u)] := by
    have hname : ∀ m : String × Json, (fieldOf? (schema .document) m.1).isSome = (m.1 == "error") := by
      intro m
      rw [isSome_fieldOf?]
      exact Bool.or_false _
    rw [known, funext hname, hu]
  have hkeep : ∀ q ∈ members, ∀ f, fieldOf? (schema .document) q.1 = some f →
      ∃ kept, keep? schema f.shape q.2 = some kept := by
    intro q hq f hf
    have hq : q ∈ known (schema .document) members := List.mem_filter.mpr ⟨hq, by rw [hf]; rfl⟩
    rw [hknown] at hq
    obtain rfl := List.mem_singleton.mp hq
    cases hf
    exact ⟨w, hw⟩
  have honce : ((known (schema .document) members).map Prod.fst).Nodup := by
    rw [hknown]
    exact List.nodup_singleton _
  show (keepMembers? schema (schema .document) [] members).bind _ = _
  rw [keepMembers?_eq [] hkeep honce, hknown, List.map_singleton, keptAs_of_keep? rfl hw]
  rfl

/-- **A document is read as the error that it writes.** -/
theorem parse?_of_isDocument {p : Protocol} {v : Json} (he : e.IsSound) (h : IsDocument p e v)
    (hv : v.IsNative) (hlimit : WithinLimit v) :
    parse? p (Utf8.ofString v.render) = some e := by
  obtain ⟨members, u, rfl, hmembers, hu⟩ := h
  obtain ⟨w, raw, hw, hcode, hraw, hlift⟩ := keep?_of_isOutermost (hu.reread he)
  have hreread : (rereadMembers members).filter (·.1 == "error") = [("error", u.reread)] := by
    rw [filter_rereadMembers (· == "error"), hmembers]
    rfl
  have hkept : keep? schema (.record .document) (object members).reread =
      some (.object [("error", w)]) := keep?_document hreread hw
  have hdocument : parseRecord? schema .document (Utf8.ofString (object members).render) =
      some (.object [("error", w)]) := parseRecord?_render hv hkept (hlimit _ hkept)
  unfold parse?
  rw [hdocument]
  show (if has "code" w || has "message" w then _ else none) = some e
  rw [hcode, Bool.true_or, if_pos rfl, hraw]
  cases p with
  | v2 => exact congrArg some hlift
  | v4 => exact congrArg some hlift

/-- **Service errors are read back**, from the document that either version of the protocol writes and
from any other that writes the same with its members in another order and with others among them. -/
theorem parse?_document (p : Protocol) (he : e.IsSound)
    (hown : p = .v2 → "errordetails" ∉ e.inner.map Prod.fst) :
    (∀ lang, (document p lang e).depth ≤ Machine.depthLimit →
      parse? p (Utf8.ofString (document p lang e).render) = some e) ∧
    ∀ v, IsDocument p e v → v.IsNative → WithinLimit v →
      parse? p (Utf8.ofString v.render) = some e := by
  constructor
  · intro lang hdepth
    exact parse?_of_isDocument he (isDocument_document lang he hown) (isNative_document p lang he)
      (withinLimit_of_depth_le hdepth)
  · intro v h hv hlimit
    exact parse?_of_isDocument he h hv hlimit

/-- A refusal with two levels of details and data of the service's own. -/
def refusal : ServiceError :=
  ⟨"Refused", "That is \"too much\"", some "People", [
    ⟨"Limit", "At most 10", none, [of "Hint" "Ask for less" (some "$top")], [("count", .integer 11)]⟩],
    [("retry", .boolean false), ("trace", .list [.null, .text "ü"])]⟩

/-- What the refusal may also look like, with members that mean nothing. -/
def refusalWithOthers : Json :=
  .object [("version", .number ⟨0x3FF0000000000000⟩), ("error", .object [
    ("severity", .object [("code", .null)]),
    ("message", .object [("value", .text "That is \"too much\""), ("translated", .boolean true)]),
    ("innererror", .object [("trace", .list [.null, .text "ü"]), ("retry", .boolean false)]),
    ("severity", .number ⟨0x7FEFFFFFFFFFFFFF⟩), ("target", .text "People"), ("code", .text "Refused"),
    ("details", .list [.object [("code", .text "Limit"), ("message", .text "At most 10"),
      ("innererror", .object [("count", .integer 11)]),
      ("details", .list [.object [("target", .text "$top"), ("message", .text "Ask for less"),
        ("code", .text "Hint")]])]])])]

theorem isSound_refusal : refusal.IsSound := by
  have hcount : Native 11 := by decide
  refine ⟨?_, rfl, ⟨?_, rfl, ⟨trivial, rfl, trivial⟩, trivial⟩, trivial⟩
  · exact ⟨trivial, ⟨trivial, trivial, trivial⟩, trivial⟩
  · exact ⟨hcount, trivial⟩

theorem isDocument_refusalWithOthers : IsDocument .v4 refusal refusalWithOthers := by
  have hnothing : ∀ {e : ServiceError} {details inner v}, "severity" ∈ fieldNames →
      Spells e details inner "severity" v :=
    fun h => absurd h (by decide)
  refine ⟨_, _, rfl, rfl, by decide, ?_, by decide⟩
  simp only [List.forall_mem_cons]
  refine ⟨hnothing, fun _ => .message (.object rfl), fun _ => .inner rfl, hnothing,
    fun _ => .target rfl, fun _ => .code, fun _ => .details ⟨⟨by decide, ?_, by decide⟩, trivial⟩,
    List.forall_mem_nil _⟩
  simp only [List.forall_mem_cons]
  refine ⟨fun _ => .code, fun _ => .message .text, fun _ => .inner rfl,
    fun _ => .details ⟨⟨by decide, ?_, by decide⟩, trivial⟩, List.forall_mem_nil _⟩
  simp only [List.forall_mem_cons]
  exact ⟨fun _ => .target rfl, fun _ => .message .text, fun _ => .code, List.forall_mem_nil _⟩

/-- The refusal is read from the document of either version, and from one with other members, whose
number is as large as a double can be. -/
theorem parse?_document_refusal :
    (∀ p, parse? p (Utf8.ofString (document p "en" refusal).render) = some refusal) ∧
      parse? .v4 (Utf8.ofString refusalWithOthers.render) = some refusal := by
  have hown : "errordetails" ∉ refusal.inner.map Prod.fst := by decide
  constructor
  · intro p
    refine (parse?_document p isSound_refusal fun _ => hown).1 "en" ?_
    cases p <;> decide
  · refine (parse?_document .v4 isSound_refusal fun _ => hown).2 refusalWithOthers
      isDocument_refusalWithOthers ?_ (withinLimit_of_depth_le (by decide))
    simp [refusalWithOthers, IsNative, Every, EveryMember, EveryItem, Native]

end OData.ServiceError
