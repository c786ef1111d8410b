import OData.Proofs.Json.Doubles
import OData.Proofs.Json.Kept
import OData.Proofs.Json.Scalars

/-!
# Documents that are written are read back

**A machine that is to build a shape makes of the text of a document just what the shape keeps of it**
(`Machine.builds`), as long as that is not nested too deeply, **and it gets past any document
that it is to pass over** (`Machine.skipsOver`). Both are by induction over the document: the
text of a list or an object is taken element by element and member by member, each of them settling
before the comma that follows it. A record that is written is therefore read back
(`parseRecord?_render`).
-/

set_option autoImplicit false

namespace OData.Json

open OData.Text OData.Text.Utf8

variable {ρ : Type}

/-! ## The text of lists and objects -/

theorem encode_list (items : List Json) :
    encode (list items).chars = 0x5B :: (encode (itemsChars items) ++ [0x5D]) := by
  rw [chars, List.cons_append, encode_cons, encode_append]
  rfl

theorem encode_object (members : List (String × Json)) :
    encode (object members).chars = 0x7B :: (encode (membersChars members) ++ [0x7D]) := by
  rw [chars, List.cons_append, encode_cons, encode_append]
  rfl

theorem encode_itemsChars (v w : Json) (items : List Json) :
    encode (itemsChars (v :: w :: items)) =
      encode v.chars ++ 0x2C :: encode (itemsChars (w :: items)) := by
  rw [itemsChars, encode_append, encode_cons]
  rfl

theorem encode_member (k : String) (v : Json) :
    encode (membersChars [(k, v)]) = encode (quoted k) ++ 0x3A :: encode v.chars := by
  rw [membersChars, encode_append, encode_cons]
  rfl

theorem encode_membersChars (k : String) (v : Json) (p : String × Json)
    (members : List (String × Json)) :
    encode (membersChars ((k, v) :: p :: members)) =
      encode (membersChars [(k, v)]) ++ 0x2C :: encode (membersChars (p :: members)) := by
  rw [membersChars, membersChars, encode_append, encode_cons]
  rfl

namespace Machine

variable {schema : Schema ρ} {m m' : Machine ρ} {w : Want ρ} {orEnd : Bool}

/-! ## Scalars -/

theorem settles_scalar {v : Json} (hv : v.IsScalar) (hn : v.IsNative)
    (hm : m.phase = .value w orEnd) (h : m.scalar? w v.reread = some m') :
    Settles schema (m.feed schema (encode v.chars)) m' := by
  have hphase := phase_of_scalar? h
  cases v with
  | null => exact settles_of_eq (feed_null hm h) hphase
  | boolean b =>
    cases b with
    | true => exact settles_of_eq (feed_true hm h) hphase
    | false => exact settles_of_eq (feed_false hm h) hphase
  | integer i => exact settles_integer hm hn h
  | text s => exact settles_of_eq (feed_text hm h) hphase
  | number d =>
    -- What is no number or infinite is written as `null`, and read as that.
    have hnull : doubleChars d = ['n', 'u', 'l', 'l'] → rereadDouble d = .null →
        Settles schema (m.feed schema (encode (number d).chars)) m' := by
      intro hchars hreread
      rw [reread, hreread] at h
      rw [chars, hchars]
      exact settles_of_eq (feed_null hm h) hphase
    cases hd : d.value with
    | finite negative mantissa exponent wideBelow =>
      obtain ⟨n, e, hread, hcomplete, hvalue⟩ := readsAsNumber_doubleChars hd
      have hreread : (number d).reread = number e := by
        rw [reread, rereadDouble, hd]
        dsimp only
        rw [hread, Option.bind_some, hvalue, Option.getD_some]
      rw [hreread] at h
      exact settles_read hm hread hcomplete hvalue h
    | nan => exact hnull (by rw [doubleChars, hd]) (by rw [rereadDouble, hd])
    | infinite => exact hnull (by rw [doubleChars, hd]) (by rw [rereadDouble, hd])
  | list => cases hv
  | object => cases hv

/-! ## Containers -/

theorem openFrame_of_lt (h : m.depth < depthLimit) (frame : Frame ρ) (phase : Phase ρ) (b : Nat) :
    m.openFrame frame phase b = { m with stack := frame :: m.stack, phase := phase } := by
  rw [openFrame, if_pos h]

/-- Within a container the depth stays as it is, wherever the machine stands in it. -/
theorem depth_within {f g : Frame ρ} {st : List (Frame ρ)} (hs : m.stack = f :: st)
    (hcloser : g.closer? = f.closer?) (p : Phase ρ) :
    depth { m with phase := p, stack := g :: st } = m.depth := by
  unfold depth
  rw [hs, List.filterMap_cons, List.filterMap_cons, hcloser]

/-! ## Documents that are passed over -/

/-- The text of the value is taken as a whole where a value is to be passed over. -/
def SkipsOver (schema : Schema ρ) (v : Json) : Prop :=
  ∀ (m : Machine ρ) (orEnd : Bool), m.phase = .value .skip orEnd →
    Settles schema (m.feed schema (encode v.chars)) (m.deliver .skipped)

/-- Inside a container, nothing is made of a value that has been passed over. -/
theorem deliver_skipped {f : Frame ρ} {st : List (Frame ρ)} (h : m.stack = f :: st) :
    m.deliver .skipped = { m with phase := .afterValue } := by
  obtain ⟨phase, stack, handed, result⟩ := m
  subst h
  cases f with
  | row fields => cases fields <;> rfl
  | _ => rfl

theorem step_colon_of (w : Want ρ) :
    ({ m with phase := .colon w } : Machine ρ).step schema 0x3A =
      { m with phase := .value w false } := rfl

theorem settles_skippedItems {items : List Json} (hitems : ∀ v ∈ items, SkipsOver schema v)
    (hne : items ≠ []) {st : List (Frame ρ)} (hm : m.phase = .value .skip orEnd)
    (hs : m.stack = .skippedList :: st) :
    Settles schema (m.feed schema (encode (itemsChars items))) { m with phase := .afterValue } := by
  induction items generalizing m orEnd with
  | nil => exact absurd rfl hne
  | cons v items ih =>
    obtain ⟨hv, hitems⟩ := List.forall_mem_cons.mp hitems
    have hfirst := hv m orEnd hm
    rw [deliver_skipped hs] at hfirst
    cases items with
    | nil => exact hfirst
    | cons w items =>
      have hcomma : ({ m with phase := .afterValue } : Machine ρ).afterValue schema 0x2C =
          { m with phase := .value .skip false } := by
        unfold afterValue
        dsimp only
        rw [hs]
        rfl
      rw [encode_itemsChars, feed_append, hfirst.comma, hcomma]
      exact ih (m := { m with phase := .value .skip false }) hitems (List.cons_ne_nil _ _) rfl hs

theorem settles_skippedMember {k : String} {v : Json} (hv : SkipsOver schema v)
    {st : List (Frame ρ)} (hm : m.phase = .name orEnd) (hs : m.stack = .skippedObject :: st) :
    Settles schema (m.feed schema (encode (membersChars [(k, v)])))
      { m with phase := .afterValue } := by
  have hskipping : m.isSkipping = true := by
    unfold isSkipping
    rw [hs]
  have hvalue := hv { m with phase := .value .skip false } false rfl
  rw [deliver_skipped (m := { m with phase := .value .skip false }) hs] at hvalue
  rw [encode_member, feed_append, feed_name hm, hskipping, if_pos rfl, feed_cons, step_colon_of]
  exact hvalue

theorem settles_skippedMembers {members : List (String × Json)}
    (hmembers : ∀ p ∈ members, SkipsOver schema p.2) (hne : members ≠ []) {st : List (Frame ρ)}
    (hm : m.phase = .name orEnd) (hs : m.stack = .skippedObject :: st) :
    Settles schema (m.feed schema (encode (membersChars members)))
      { m with phase := .afterValue } := by
  induction members generalizing m orEnd with
  | nil => exact absurd rfl hne
  | cons p members ih =>
    obtain ⟨k, v⟩ := p
    obtain ⟨hv, hmembers⟩ := List.forall_mem_cons.mp hmembers
    have hfirst := settles_skippedMember (k := k) hv hm hs
    cases members with
    | nil => exact hfirst
    | cons q members =>
      have hcomma : ({ m with phase := .afterValue } : Machine ρ).afterValue schema 0x2C =
          { m with phase := .name false } := by
        unfold afterValue
        dsimp only
        rw [hs]
        rfl
      rw [encode_membersChars, feed_append, hfirst.comma, hcomma]
      exact ih (m := { m with phase := .name false }) hmembers (List.cons_ne_nil _ _) rfl hs

theorem skipsOver_list {items : List Json} (h : ∀ v ∈ items, SkipsOver schema v) :
    SkipsOver schema (list items) := by
  intro m orEnd hm
  have hopen : m.step schema 0x5B =
      { m with stack := .skippedList :: m.stack, phase := .value .skip true } :=
    step_first hm rfl (by decide)
  rw [encode_list, feed_cons, hopen, feed_append]
  refine settles_of_eq ?_ (phase_deliver m .skipped)
  cases items with
  | nil => rfl
  | cons v items =>
    have hitems := settles_skippedItems h (List.cons_ne_nil _ _)
      (m := { m with stack := .skippedList :: m.stack, phase := .value .skip true }) rfl rfl
    exact hitems.next (by decide) []

theorem skipsOver_object {members : List (String × Json)}
    (h : ∀ p ∈ members, SkipsOver schema p.2) : SkipsOver schema (object members) := by
  intro m orEnd hm
  have hopen : m.step schema 0x7B =
      { m with stack := .skippedObject :: m.stack, phase := .name true } :=
    step_first hm rfl (by decide)
  rw [encode_object, feed_cons, hopen, feed_append]
  refine settles_of_eq ?_ (phase_deliver m .skipped)
  cases members with
  | nil => rfl
  | cons p members =>
    have hmembers := settles_skippedMembers h (List.cons_ne_nil _ _)
      (m := { m with stack := .skippedObject :: m.stack, phase := .name true }) rfl rfl
    exact hmembers.next (by decide) []

mutual

/-- **Any document is passed over**, however deep it is. -/
theorem skipsOver : ∀ {v : Json}, v.IsNative → SkipsOver schema v
  | .list _, h => skipsOver_list (skipsOver_items h)
  | .object _, h => skipsOver_object (skipsOver_members h)
  | .null, h | .boolean _, h | .integer _, h | .number _, h | .text _, h =>
    fun _ _ hm => settles_scalar trivial h hm rfl

theorem skipsOver_items : ∀ {items : List Json}, (list items).IsNative →
    ∀ v ∈ items, SkipsOver schema v
  | [], _ => fun _ h => nomatch h
  | _ :: _, h => List.forall_mem_cons.mpr ⟨skipsOver h.1, skipsOver_items h.2⟩

theorem skipsOver_members : ∀ {members : List (String × Json)}, (object members).IsNative →
    ∀ p ∈ members, SkipsOver schema p.2
  | [], _ => fun _ h => nomatch h
  | _ :: _, h => List.forall_mem_cons.mpr ⟨skipsOver h.1, skipsOver_members h.2⟩

end

/-! ## Documents that are built -/

/-- The text of the value is taken as a whole where a value is to be built, for what the shape keeps
of it. -/
def Builds (schema : Schema ρ) (v : Json) : Prop :=
  ∀ (m : Machine ρ) (s : Shape ρ) (orEnd : Bool) (w : Json), m.phase = .value (.build s) orEnd →
    keep? schema s v.reread = some w → m.depth + w.depth ≤ depthLimit →
    Settles schema (m.feed schema (encode v.chars)) (m.deliver (.value w))

theorem builds_scalar {v : Json} (hv : v.IsScalar) (hn : v.IsNative) : Builds schema v := by
  intro m s orEnd w hm hw hdepth
  have hscalar : v.reread.IsScalar := by
    cases v with
    | number d => exact isScalar_rereadDouble d
    | _ => exact hv
  refine settles_scalar hv hn hm ?_
  rw [keep?_of_isScalar hscalar] at hw
  rw [scalar?, hw]
  rfl

theorem settles_items {items ws acc : List Json} {element : Shape ρ} {st : List (Frame ρ)}
    (hitems : ∀ v ∈ items, Builds schema v) (hne : items ≠ [])
    (hm : m.phase = .value (.build element) orEnd) (hs : m.stack = .list element acc :: st)
    (hws : keepItems? schema element (rereadItems items) = some ws)
    (hdepth : m.depth + itemsDepth ws ≤ depthLimit) :
    Settles schema (m.feed schema (encode (itemsChars items)))
      { m with phase := .afterValue, stack := .list element (ws.reverse ++ acc) :: st } := by
  -- What has been kept so far is in the frame, newest first; each comma settles the value before it.
  induction items generalizing m orEnd ws acc with
  | nil => exact absurd rfl hne
  | cons v items ih =>
    obtain ⟨hv, hitems⟩ := List.forall_mem_cons.mp hitems
    rw [rereadItems, keepItems?] at hws
    obtain ⟨w, hw, hws⟩ := Option.bind_eq_some_iff.mp hws
    obtain ⟨rest, hrest, rfl⟩ := Option.map_eq_some_iff.mp hws
    rw [itemsDepth] at hdepth
    have hdeliver : m.deliver (.value w) =
        { m with phase := .afterValue, stack := .list element (w :: acc) :: st } := by
      unfold deliver
      dsimp only
      rw [hs]
    have hfirst := hv m element orEnd w hm hw (by omega)
    rw [hdeliver] at hfirst
    cases items with
    | nil =>
      cases hrest
      exact hfirst
    | cons u items =>
      rw [encode_itemsChars, feed_append, hfirst.comma, List.reverse_cons, List.append_assoc]
      refine ih (m := { m with
        phase := .value (.build element) false, stack := .list element (w :: acc) :: st })
        hitems (List.cons_ne_nil _ _) rfl rfl hrest ?_
      have hsame := depth_within hs (g := .list element (w :: acc)) rfl (.value (.build element) false)
      omega

/-- A list is built wherever one is kept. -/
theorem openList_of_keep? {s : Shape ρ} {items : List Json} {w : Json}
    (h : keep? schema s (list items) = some w) :
    ∃ element ws, keepItems? schema element items = some ws ∧ w = list ws ∧
      ∀ m : Machine ρ, m.openList schema (.build s) =
        m.openFrame (.list element []) (.value (.build element) true) 0x5B := by
  rw [keep?] at h
  split at h
  · next hcore =>
    cases h
    refine ⟨.any, items, keepItems?_any items, rfl, ?_⟩
    intro m
    unfold openList
    dsimp only
    rw [hcore]
  · next element hcore =>
    obtain ⟨ws, hws, rfl⟩ := Option.map_eq_some_iff.mp h
    refine ⟨element, ws, hws, rfl, ?_⟩
    intro m
    unfold openList
    dsimp only
    rw [hcore]
  · cases h

theorem builds_list {items : List Json} (h : ∀ v ∈ items, Builds schema v) :
    Builds schema (list items) := by
  intro m s orEnd w hm hw hdepth
  obtain ⟨element, ws, hws, rfl, hopenList⟩ := openList_of_keep? hw
  rw [Json.depth] at hdepth
  have hopen : m.step schema 0x5B = { m with
      stack := .list element [] :: m.stack, phase := .value (.build element) true } := by
    refine (step_first hm rfl (by decide)).trans ?_
    show m.openList schema (.build s) = _
    rw [hopenList, openFrame_of_lt (by omega)]
  rw [encode_list, feed_cons, hopen, feed_append]
  refine settles_of_eq ?_ (phase_deliver m _)
  cases items with
  | nil =>
    cases hws
    rfl
  | cons v items =>
    have hitems := settles_items (m := { m with
      stack := .list element [] :: m.stack, phase := .value (.build element) true })
      h (List.cons_ne_nil _ _) rfl rfl hws (by
        show m.depth + 1 + itemsDepth ws ≤ depthLimit
        omega)
    rw [List.append_nil] at hitems
    refine (hitems.next (by decide) []).trans ?_
    show m.deliver (.value (.list ws.reverse.reverse)) = _
    rw [List.reverse_reverse]

theorem settles_member {k name : String} {v : Json} (hv : Builds schema v)
    {acc : List (String × Json)} {st : List (Frame ρ)} (hm : m.phase = .name orEnd)
    (hs : m.stack = .object acc name :: st) (hdepth : m.depth + v.reread.depth ≤ depthLimit) :
    Settles schema (m.feed schema (encode (membersChars [(k, v)])))
      { m with phase := .afterValue, stack := .object ((k, v.reread) :: acc) k :: st } := by
  have hnamed : m.named schema k =
      { m with stack := .object acc k :: st, phase := .colon (.build .any) } := by
    unfold named
    rw [hs]
  rw [encode_member, feed_append, feed_name hm, isSkipping_of_inObject ⟨_, _, _, hs⟩,
    if_neg Bool.false_ne_true, hnamed, feed_cons]
  refine hv { m with stack := .object acc k :: st, phase := .value (.build .any) false } .any false
    v.reread rfl (keep?_any v.reread) ?_
  have hsame := depth_within hs (g := .object acc k) rfl (.value (.build .any) false)
  omega

theorem settles_members {members acc : List (String × Json)} {name : String}
    (hmembers : ∀ p ∈ members, Builds schema p.2) (hne : members ≠ []) {st : List (Frame ρ)}
    (hm : m.phase = .name orEnd) (hs : m.stack = .object acc name :: st)
    (hdepth : m.depth + membersDepth (rereadMembers members) ≤ depthLimit) :
    ∃ last, Settles schema (m.feed schema (encode (membersChars members)))
      { m with
        phase := .afterValue
        stack := .object ((rereadMembers members).reverse ++ acc) last :: st } := by
  induction members generalizing m orEnd acc name with
  | nil => exact absurd rfl hne
  | cons p members ih =>
    obtain ⟨k, v⟩ := p
    obtain ⟨hv, hmembers⟩ := List.forall_mem_cons.mp hmembers
    rw [rereadMembers, membersDepth] at hdepth
    have hfirst := settles_member (k := k) (v := v) hv hm hs (by omega)
    cases members with
    | nil => exact ⟨k, hfirst⟩
    | cons q members =>
      rw [encode_membersChars, feed_append, hfirst.comma, rereadMembers, List.reverse_cons,
        List.append_assoc]
      refine ih (m := { m with
        phase := .name false, stack := .object ((k, v.reread) :: acc) k :: st })
        hmembers (List.cons_ne_nil _ _) rfl rfl ?_
      have hsame := depth_within hs (g := .object ((k, v.reread) :: acc) k) rfl (.name false)
      omega

theorem isSkipping_of_record {kind : ρ} {acc : List (String × Json)} {name : String}
    {st : List (Frame ρ)} (hs : m.stack = .record kind acc name :: st) : m.isSkipping = false := by
  unfold isSkipping
  rw [hs]

/-- A member that the record has no field for is passed over. -/
theorem settles_unknown {k name : String} {v : Json} (hskip : SkipsOver schema v) {kind : ρ}
    {acc : List (String × Json)} {st : List (Frame ρ)} (hm : m.phase = .name orEnd)
    (hs : m.stack = .record kind acc name :: st) (hf : fieldOf? (schema kind) k = none) :
    Settles schema (m.feed schema (encode (membersChars [(k, v)])))
      { m with phase := .afterValue } := by
  have hnamed : m.named schema k = { m with phase := .colon .skip } := by
    unfold named
    rw [hs]
    dsimp only
    rw [hf]
  have hvalue := hskip { m with phase := .value .skip false } false rfl
  rw [deliver_skipped (m := { m with phase := .value .skip false }) hs] at hvalue
  rw [encode_member, feed_append, feed_name hm, isSkipping_of_record hs,
    if_neg Bool.false_ne_true, hnamed, feed_cons, step_colon_of]
  exact hvalue

/-- A member that the record has a field for is built in the shape of the field. -/
theorem settles_known {k name : String} {v w : Json} (hv : Builds schema v) {kind : ρ}
    {acc : List (String × Json)} {st : List (Frame ρ)} (hm : m.phase = .name orEnd)
    (hs : m.stack = .record kind acc name :: st) {f : Field ρ}
    (hf : fieldOf? (schema kind) k = some f) (hnew : ¬ acc.any (·.1 == k) = true)
    (hw : keep? schema f.shape v.reread = some w) (hdepth : m.depth + w.depth ≤ depthLimit) :
    Settles schema (m.feed schema (encode (membersChars [(k, v)])))
      { m with phase := .afterValue, stack := .record kind ((k, w) :: acc) k :: st } := by
  have hnamed : m.named schema k =
      { m with stack := .record kind acc k :: st, phase := .colon (.build f.shape) } := by
    unfold named
    rw [hs]
    dsimp only
    rw [hf]
    dsimp only
    rw [if_neg hnew]
  rw [encode_member, feed_append, feed_name hm, isSkipping_of_record hs,
    if_neg Bool.false_ne_true, hnamed, feed_cons]
  refine hv { m with stack := .record kind acc k :: st, phase := .value (.build f.shape) false }
    f.shape false w rfl hw ?_
  have hsame := depth_within hs (g := .record kind acc k) rfl (.value (.build f.shape) false)
  omega

/-- One member of a record, which has a field for it or not. -/
theorem settles_field {k name : String} {v : Json} (hv : Builds schema v)
    (hskip : SkipsOver schema v) {kind : ρ} {acc more ws : List (String × Json)}
    {st : List (Frame ρ)} (hm : m.phase = .name orEnd) (hs : m.stack = .record kind acc name :: st)
    (hws : keepMembers? schema (schema kind) acc ((k, v.reread) :: more) = some ws)
    (hdepth : ∀ p ∈ ws, m.depth + p.2.depth ≤ depthLimit) :
    ∃ acc' last, keepMembers? schema (schema kind) acc' more = some ws ∧
      Settles schema (m.feed schema (encode (membersChars [(k, v)])))
        { m with phase := .afterValue, stack := .record kind acc' last :: st } := by
  rw [keepMembers?] at hws
  cases hf : fieldOf? (schema kind) k with
  | none =>
    rw [hf] at hws
    refine ⟨acc, name, hws, ?_⟩
    rw [← hs]
    exact settles_unknown hskip hm hs hf
  | some f =>
    rw [hf] at hws
    dsimp only at hws
    split at hws
    · cases hws
    · next hnew =>
      obtain ⟨w, hw, hws⟩ := Option.bind_eq_some_iff.mp hws
      have hkept : (k, w) ∈ ws := mem_of_keepMembers? hws List.mem_cons_self
      exact ⟨(k, w) :: acc, k, hws, settles_known hv hm hs hf hnew hw (hdepth _ hkept)⟩

theorem settles_fields {members acc ws : List (String × Json)} {name : String} {kind : ρ}
    (hmembers : ∀ p ∈ members, Builds schema p.2 ∧ SkipsOver schema p.2) (hne : members ≠ [])
    {st : List (Frame ρ)} (hm : m.phase = .name orEnd) (hs : m.stack = .record kind acc name :: st)
    (hws : keepMembers? schema (schema kind) acc (rereadMembers members) = some ws)
    (hdepth : ∀ p ∈ ws, m.depth + p.2.depth ≤ depthLimit) :
    ∃ last, Settles schema (m.feed schema (encode (membersChars members)))
      { m with phase := .afterValue, stack := .record kind ws.reverse last :: st } := by
  induction members generalizing m orEnd acc name with
  | nil => exact absurd rfl hne
  | cons p members ih =>
    obtain ⟨k, v⟩ := p
    obtain ⟨⟨hv, hskip⟩, hmembers⟩ := List.forall_mem_cons.mp hmembers
    rw [rereadMembers] at hws
    obtain ⟨acc', last, hrest, hfirst⟩ := settles_field hv hskip hm hs hws hdepth
    cases members with
    | nil =>
      cases hrest
      rw [List.reverse_reverse]
      exact ⟨last, hfirst⟩
    | cons q members =>
      rw [encode_membersChars, feed_append, hfirst.comma]
      refine ih (m := { m with phase := .name false, stack := .record kind acc' last :: st })
        hmembers (List.cons_ne_nil _ _) rfl rfl hrest ?_
      intro p hp
      have hsame := depth_within hs (g := .record kind acc' last) rfl (.name false)
      have hkept := hdepth p hp
      omega

/-- An object is built wherever one is kept, as it is or as a record. -/
theorem openObject_of_keep? {s : Shape ρ} {members : List (String × Json)} {w : Json}
    (h : keep? schema s (object members) = some w) :
    (w = object members ∧ ∀ m : Machine ρ,
        m.openObject (.build s) = m.openFrame (.object [] "") (.name true) 0x7B) ∨
      ∃ kind ws, keepMembers? schema (schema kind) [] members = some ws ∧ w = object ws ∧
        hasFields (schema kind) ws = true ∧ ∀ m : Machine ρ,
          m.openObject (.build s) = m.openFrame (.record kind [] "") (.name true) 0x7B := by
  rw [keep?] at h
  split at h
  · next hcore =>
    cases h
    refine .inl ⟨rfl, ?_⟩
    intro m
    unfold openObject
    dsimp only
    rw [hcore]
  · next hcore =>
    cases h
    refine .inl ⟨rfl, ?_⟩
    intro m
    unfold openObject
    dsimp only
    rw [hcore]
  · next kind hcore =>
    obtain ⟨ws, hws, h⟩ := Option.bind_eq_some_iff.mp h
    split at h
    · next hfields =>
      cases h
      refine .inr ⟨kind, ws, hws, rfl, hfields, ?_⟩
      intro m
      unfold openObject
      dsimp only
      rw [hcore]
    · cases h
  · cases h

theorem step_openObject {s : Shape ρ} {frame : Frame ρ} (hm : m.phase = .value (.build s) orEnd)
    (hopen : m.openObject (.build s) = m.openFrame frame (.name true) 0x7B)
    (hdepth : m.depth < depthLimit) :
    m.step schema 0x7B = { m with stack := frame :: m.stack, phase := .name true } :=
  calc m.step schema 0x7B
      = m.openObject (.build s) := step_first hm rfl (by decide)
    _ = m.openFrame frame (.name true) 0x7B := hopen
    _ = { m with stack := frame :: m.stack, phase := .name true } := openFrame_of_lt hdepth _ _ _

/-- An object that is built as it is. -/
theorem settles_object {s : Shape ρ} {members : List (String × Json)}
    (h : ∀ p ∈ members, Builds schema p.2) (hm : m.phase = .value (.build s) orEnd)
    (hopen : m.openObject (.build s) = m.openFrame (.object [] "") (.name true) 0x7B)
    (hdepth : m.depth + (membersDepth (rereadMembers members) + 1) ≤ depthLimit) :
    Settles schema (m.feed schema (encode (object members).chars))
      (m.deliver (.value (.object (rereadMembers members)))) := by
  rw [encode_object, feed_cons, step_openObject hm hopen (by omega), feed_append]
  refine settles_of_eq ?_ (phase_deliver m _)
  cases members with
  | nil => rfl
  | cons p members =>
    obtain ⟨last, hmembers⟩ := settles_members (m := { m with
      stack := .object [] "" :: m.stack, phase := .name true })
      h (List.cons_ne_nil _ _) rfl rfl (by
        show m.depth + 1 + membersDepth _ ≤ depthLimit
        omega)
    rw [List.append_nil] at hmembers
    refine (hmembers.next (by decide) []).trans ?_
    show m.deliver (.value (.object (rereadMembers (p :: members)).reverse.reverse)) = _
    rw [List.reverse_reverse]

/-- A record is delivered with all its fields. -/
theorem closeAt_record {kind : ρ} {acc : List (String × Json)} {last : String} {p : Phase ρ}
    (h : hasFields (schema kind) acc = true) :
    ({ m with stack := .record kind acc last :: m.stack, phase := p } : Machine ρ).closeAt schema
      0x7D = m.deliver (.value (.object acc.reverse)) := by
  unfold closeAt
  dsimp only
  rw [if_pos ⟨rfl, h⟩]
  rfl

/-- An object that is built as a record. -/
theorem settles_record {s : Shape ρ} {kind : ρ} {members ws : List (String × Json)}
    (h : ∀ p ∈ members, Builds schema p.2 ∧ SkipsOver schema p.2)
    (hm : m.phase = .value (.build s) orEnd)
    (hopen : m.openObject (.build s) = m.openFrame (.record kind [] "") (.name true) 0x7B)
    (hws : keepMembers? schema (schema kind) [] (rereadMembers members) = some ws)
    (hfields : hasFields (schema kind) ws = true)
    (hdepth : m.depth + (membersDepth ws + 1) ≤ depthLimit) :
    Settles schema (m.feed schema (encode (object members).chars))
      (m.deliver (.value (.object ws))) := by
  rw [encode_object, feed_cons, step_openObject hm hopen (by omega), feed_append]
  refine settles_of_eq ?_ (phase_deliver m _)
  cases members with
  | nil =>
    cases hws
    exact closeAt_record hfields
  | cons p members =>
    obtain ⟨last, hmembers⟩ := settles_fields (m := { m with
      stack := .record kind [] "" :: m.stack, phase := .name true })
      h (List.cons_ne_nil _ _) rfl rfl hws (by
        intro q hq
        have hq := depth_le_membersDepth hq
        show m.depth + 1 + q.2.depth ≤ depthLimit
        omega)
    refine (hmembers.next (by decide) []).trans ?_
    refine (closeAt_record ((hasFields_reverse _ ws).trans hfields)).trans ?_
    rw [List.reverse_reverse]

theorem builds_object {members : List (String × Json)}
    (h : ∀ p ∈ members, Builds schema p.2 ∧ SkipsOver schema p.2) :
    Builds schema (object members) := by
  intro m s orEnd w hm hw hdepth
  rcases openObject_of_keep? hw with ⟨rfl, hopen⟩ | ⟨kind, ws, hws, rfl, hfields, hopen⟩
  · exact settles_object (fun p hp => (h p hp).1) hm (hopen m) hdepth
  · exact settles_record h hm (hopen m) hws hfields hdepth

mutual

/-- **What is built of a document is what the shape keeps of it**, if it is not nested too deeply. -/
theorem builds : ∀ {v : Json}, v.IsNative → Builds schema v
  | .list _, h => builds_list (builds_items h)
  | .object _, h => builds_object (builds_members h)
  | .null, h | .boolean _, h | .integer _, h | .number _, h | .text _, h => builds_scalar trivial h

theorem builds_items : ∀ {items : List Json}, (list items).IsNative → ∀ v ∈ items, Builds schema v
  | [], _ => fun _ h => nomatch h
  | _ :: _, h => List.forall_mem_cons.mpr ⟨builds h.1, builds_items h.2⟩

theorem builds_members : ∀ {members : List (String × Json)}, (object members).IsNative →
    ∀ p ∈ members, Builds schema p.2 ∧ SkipsOver schema p.2
  | [], _ => fun _ h => nomatch h
  | _ :: _, h => List.forall_mem_cons.mpr ⟨⟨builds h.1, skipsOver h.1⟩, builds_members h.2⟩

end

end Machine

/-! ## Whole documents -/

/-- **A record that is written is read back**: of its text is read what is kept of the document, if
that is not nested too deeply. -/
theorem parseRecord?_render {schema : Schema ρ} {kind : ρ} {v w : Json} (hv : v.IsNative)
    (hw : keep? schema (.record kind) v.reread = some w) (hdepth : w.depth ≤ Machine.depthLimit) :
    parseRecord? schema kind (Utf8.ofString v.render) = some w := by
  have hsettles := Machine.builds hv (Machine.start (.build (.record kind)))
    (.record kind) false w rfl hw (by
      show 0 + w.depth ≤ _
      omega)
  have htext : Utf8.ofString v.render = encode v.chars := by
    rw [Utf8.ofString, render, String.toList_ofList]
  unfold parseRecord? readFrom
  rw [htext, Machine.run_eq_feed hsettles.not_faulted]
  dsimp only
  rw [if_neg Bool.false_ne_true, hsettles.ended]
  rfl

end OData.Json
