import OData.Proofs.Headers.Names

/-!
# Header maps as plain lists

A map that started empty, after any changes, and the plain list that the same changes make of the
empty list: names in lower case, no two of them equal, each with its values in order
(`Headers.Plain`). **The map holds what the list holds**: what is looked up under any spelling of a
name is what stands in the list under its lower case (`Headers.run_holds`). In addition the map
remembers how each name was spelled when it was last given to the map, a change leaves all alone
that it is not about, and the pairs of a map whose names all have values make that map again.
-/

set_option autoImplicit false

namespace OData.Headers

open OData.Text

inductive Change where
  | append (name value : String)
  | insert (name value : String)
  | insertAll (name : String) (values : List String)
  | insertIfAbsent (name value : String)
  | erase (name : String)
  | extend (other : Headers)
  /-- A map that is made of pairs takes the place of the one before. -/
  | collect (pairs : List (String × String))
  deriving DecidableEq, Repr

namespace Change

def apply (h : Headers) : Change → Headers
  | append name value => h.append name value
  | insert name value => h.insert name value
  | insertAll name values => h.insertAll name values
  | insertIfAbsent name value => h.insertIfAbsent name value
  | erase name => h.erase name
  | extend other => h.extend other
  | collect pairs => ofPairs pairs

/-- What a change does to the names, one after the other. -/
def edits : Change → List Edit
  | append name _ | insert name _ | insertAll name _ | insertIfAbsent name _ => [.put name]
  | erase name => [.take name]
  | extend other => other.pairs.map fun p => .put p.1
  | collect pairs => .clear :: pairs.map fun p => .put p.1

/-- Whether a change says nothing about the name of an entry. -/
def spares (c : Change) (e : Entry) : Bool := c.edits.all (·.settles? e.name == none)

end Change

/-- The map that some changes make of the empty one. -/
def run (changes : List Change) : Headers := changes.foldl Change.apply empty

/-! ## Plain lists -/

/-- Names in lower case, each with its values. -/
abbrev Plain := List (String × List String)

namespace Plain

def update (key : String) (f : List String → List String) (m : Plain) : Plain :=
  if m.any (key == ·.1) then m.map fun p => (p.1, if key == p.1 then f p.2 else p.2)
  else m ++ [(key, f [])]

def addValues (m : Plain) (key : String) (values : List String) : Plain :=
  values.foldl (fun m value => m.update key (· ++ [value])) m

end Plain

/-- The map without the spellings of its names. -/
def plain (h : Headers) : Plain := h.entries.map fun e => (lower e.name, e.values)

/-- What a change does to a plain list. -/
def Change.onPlain (m : Plain) : Change → Plain
  | append name value => m.update (lower name) (· ++ [value])
  | insert name value => m.update (lower name) fun _ => [value]
  | insertAll name values => m.update (lower name) fun _ => values
  | insertIfAbsent name value =>
    if m.any (lower name == ·.1) then m else m ++ [(lower name, [value])]
  | erase name => m.filter (lower name != ·.1)
  | extend other => other.plain.foldl (fun m p => m.addValues p.1 p.2) m
  | collect pairs => pairs.foldl (fun m p => m.update (lower p.1) (· ++ [p.2])) []

/-! ## Names -/

/-- A change of values puts a name in, or spells it anew. -/
theorem names_change (name : String) (f : List String → List String) (es : List Entry) :
    (change name f es).map Entry.name = (Edit.put name).onNames (es.map Entry.name) := by
  induction es with
  | nil => rfl
  | cons e es ih =>
    rw [change, List.map_cons, Edit.onNames, List.any_cons]
    cases he : sameName name e.name with
    | true => rw [if_pos rfl, Bool.true_or, if_pos rfl, List.map_cons]
    | false =>
      rw [if_neg Bool.false_ne_true, Bool.false_or, List.map_cons, ih, Edit.onNames]
      split <;> rfl

theorem names_appendAll (ps : List (String × String)) (h : Headers) :
    (h.appendAll ps).names = (ps.map fun p => Edit.put p.1).foldl Edit.onNames h.names := by
  induction ps generalizing h with
  | nil => rfl
  | cons p ps ih =>
    rw [List.map_cons, List.foldl_cons]
    refine (ih (h.append p.1 p.2)).trans (congrArg (List.foldl Edit.onNames · _) ?_)
    exact names_change p.1 _ h.entries

/-- Where no two names are the same, all entries of a name are taken out with the first. -/
theorem eraseP_eq {es : List Entry} (hd : Distinct (es.map Entry.name)) (name : String) :
    es.eraseP (sameName name ·.name) = es.filter (!sameName name ·.name) := by
  induction es with
  | nil => rfl
  | cons e es ih =>
    obtain ⟨hfirst, hrest⟩ := List.pairwise_cons.mp hd
    rw [List.eraseP_cons, List.filter_cons]
    cases he : sameName name e.name with
    | false => exact congrArg (e :: ·) (ih hrest)
    | true =>
      refine (List.filter_eq_self.mpr ?_).symm
      intro x hx
      rw [sameName_comm, sameName_congr he, sameName_comm, hfirst x.name (List.mem_map_of_mem hx)]
      rfl

theorem names_erase {h : Headers} (hd : Distinct h.names) (name : String) :
    (h.erase name).names = (Edit.take name).onNames h.names := by
  rw [erase, names, eraseP_eq hd, Edit.onNames, names, List.filter_map]
  rfl

/-- What a change does to the names is what its edits do, one after the other. -/
theorem names_apply {h : Headers} (hd : Distinct h.names) (c : Change) :
    (c.apply h).names = c.edits.foldl Edit.onNames h.names := by
  cases c with
  | append name value => exact names_change name _ h.entries
  | insert name value => exact names_change name _ h.entries
  | insertAll name values => exact names_change name _ h.entries
  | erase name => exact names_erase hd name
  | extend other => exact names_appendAll other.pairs h
  | collect pairs => exact names_appendAll pairs empty
  | insertIfAbsent name value =>
    rw [Change.apply, insertIfAbsent]
    refine Eq.trans ?_ (names_change name (· ++ [value]) h.entries)
    cases hc : h.contains name with
    | false => rfl
    | true =>
      rw [names_change, Edit.onNames, List.any_map]
      exact (if_pos hc).symm

theorem run_concat (changes : List Change) (c : Change) :
    run (changes ++ [c]) = c.apply (run changes) := by
  rw [run, List.foldl_append, List.foldl_cons, List.foldl_nil]
  rfl

/-- **The names of a map and their order**: a run of changes is the history of its edits. -/
theorem names_run (changes : List Change) :
    (run changes).names = (changes.flatMap Change.edits).foldl Edit.onNames [] := by
  induction changes using List.reverseRecOn with
  | nil => rfl
  | append_singleton changes c ih =>
    have hd : Distinct (run changes).names := by
      rw [ih]
      exact (foldl_onNames _).2.1
    rw [run_concat, names_apply hd, ih, List.flatMap_append, List.flatMap_singleton,
      List.foldl_append]

theorem distinct_run (changes : List Change) : Distinct (run changes).names := by
  rw [names_run]
  exact (foldl_onNames _).2.1

/-! ## Values -/

namespace Plain

theorem update_cons_of_ne {key : String} {p : String × List String} (hne : (key == p.1) = false)
    (f : List String → List String) (m : Plain) : update key f (p :: m) = p :: update key f m := by
  rw [update, update, List.any_cons, hne, Bool.false_or, List.map_cons, hne]
  split <;> rfl

/-- Where a key is there once, only the first entry is updated. -/
theorem update_cons_of_eq {key : String} {p : String × List String} (heq : (key == p.1) = true)
    (f : List String → List String) {m : Plain} (hm : ∀ q ∈ m, (key == q.1) = false) :
    update key f (p :: m) = (p.1, f p.2) :: m := by
  have hrest : m.map (fun q => (q.1, if key == q.1 then f q.2 else q.2)) = m := by
    refine (List.map_congr_left ?_).trans m.map_id
    intro q hq
    rw [hm q hq]
    rfl
  rw [update, List.any_cons, heq, Bool.true_or, if_pos rfl, List.map_cons, hrest, heq, if_pos rfl]

end Plain

/-- Where no two names are the same, a change of values is an update of the plain list. -/
theorem plain_change {es : List Entry} (hd : Distinct (es.map Entry.name)) (name : String)
    (f : List String → List String) :
    plain ⟨change name f es⟩ = (plain ⟨es⟩).update (lower name) f := by
  induction es with
  | nil => rfl
  | cons e es ih =>
    obtain ⟨hfirst, hrest⟩ := List.pairwise_cons.mp hd
    rw [change]
    cases he : sameName name e.name with
    | false =>
      exact (congrArg ((lower e.name, e.values) :: ·) (ih hrest)).trans
        (Plain.update_cons_of_ne he f _).symm
    | true =>
      refine (Plain.update_cons_of_eq (p := (lower e.name, e.values)) he f ?_).symm
      intro q hq
      obtain ⟨x, hx, rfl⟩ := List.mem_map.mp hq
      have hne := hfirst x.name (List.mem_map_of_mem hx)
      rw [sameName_comm, ← sameName_congr he, sameName_comm] at hne
      exact hne

theorem plain_append {h : Headers} (hd : Distinct h.names) (name value : String) :
    (h.append name value).plain = h.plain.update (lower name) (· ++ [value]) :=
  plain_change hd name _

theorem distinct_append {h : Headers} (hd : Distinct h.names) (name value : String) :
    Distinct (h.append name value).names := by
  have hnames : (h.append name value).names = _ := names_change name _ h.entries
  rw [hnames]
  exact distinct_onNames hd _

theorem plain_appendAll {h : Headers} (hd : Distinct h.names) (ps : List (String × String)) :
    (h.appendAll ps).plain = ps.foldl (fun m p => m.update (lower p.1) (· ++ [p.2])) h.plain := by
  induction ps generalizing h with
  | nil => rfl
  | cons p ps ih =>
    refine (ih (distinct_append hd p.1 p.2)).trans ?_
    rw [plain_append hd]
    rfl

/-- To go through the pairs of a map is to go through the values of its names. -/
theorem foldl_pairs (other : Headers) (m : Plain) :
    other.pairs.foldl (fun m p => m.update (lower p.1) (· ++ [p.2])) m =
      other.plain.foldl (fun m p => m.addValues p.1 p.2) m := by
  rw [pairs, plain, List.foldl_flatMap, List.foldl_map]
  refine congrArg (List.foldl · m other.entries) (funext fun m => funext fun e => ?_)
  rw [List.foldl_map]
  rfl

theorem any_plain (h : Headers) (n : String) :
    h.plain.any (lower n == ·.1) = h.contains n := List.any_map

/-- **A change of the map is that change of the plain list.** -/
theorem plain_apply {h : Headers} (hd : Distinct h.names) (c : Change) :
    (c.apply h).plain = c.onPlain h.plain := by
  cases c with
  | append name value => exact plain_append hd name value
  | insert name value => exact plain_change hd name _
  | insertAll name values => exact plain_change hd name _
  | insertIfAbsent name value =>
    rw [Change.apply, Change.onPlain, any_plain, insertIfAbsent]
    cases hc : h.contains name with
    | true => rfl
    | false =>
      rw [if_neg Bool.false_ne_true, if_neg Bool.false_ne_true, plain_append hd, Plain.update,
        any_plain, hc]
      rfl
  | erase name =>
    rw [Change.apply, Change.onPlain, erase, plain, eraseP_eq hd, plain, List.filter_map]
    rfl
  | extend other =>
    rw [Change.apply, Change.onPlain, extend, plain_appendAll hd, foldl_pairs]
  | collect pairs =>
    rw [Change.apply, Change.onPlain, ofPairs, plain_appendAll (h := empty) .nil]
    rfl

theorem plain_run (changes : List Change) :
    (run changes).plain = changes.foldl Change.onPlain [] := by
  induction changes using List.reverseRecOn with
  | nil => rfl
  | append_singleton changes c ih =>
    rw [run_concat, plain_apply (distinct_run changes), ih, List.foldl_append, List.foldl_cons,
      List.foldl_nil]

/-- A name is looked up in the plain list in lower case, however it is spelled. -/
theorem lookup_plain (h : Headers) (n : String) :
    h.plain.lookup (lower n) = (h.entry? n).map Entry.values := by
  obtain ⟨es⟩ := h
  induction es with
  | nil => rfl
  | cons e es ih =>
    rw [plain, List.map_cons, List.lookup_cons, entry?, List.find?_cons]
    have hkey : (lower n == lower e.name) = sameName n e.name := rfl
    rw [hkey]
    cases sameName n e.name with
    | true => rfl
    | false => exact ih

theorem contains_eq_lookup (h : Headers) (n : String) :
    h.contains n = (h.plain.lookup (lower n)).isSome := by
  rw [lookup_plain, Option.isSome_map, entry?, List.isSome_find?, contains]

/-! ## What a change is not about -/

theorem filter_appendAll {p : Entry → Bool} (ps : List (String × String))
    (hp : ∀ e, p e = true → ∀ q ∈ ps, sameName q.1 e.name = false) (h : Headers) :
    (h.appendAll ps).entries.filter p = h.entries.filter p := by
  induction ps generalizing h with
  | nil => rfl
  | cons q ps ih =>
    refine (ih ?_ (h.append q.1 q.2)).trans ?_
    · exact fun e he q' hq' => hp e he q' (List.mem_cons_of_mem _ hq')
    · exact filter_change (fun e he => hp e he q List.mem_cons_self) _ h.entries

theorem filter_erase {h : Headers} (hd : Distinct h.names) (name : String) {p : Entry → Bool}
    (hp : ∀ e, p e = true → sameName name e.name = false) :
    (h.erase name).entries.filter p = h.entries.filter p := by
  rw [erase, eraseP_eq hd, List.filter_filter]
  refine List.filter_congr ?_
  intro e _
  cases he : p e with
  | false => rfl
  | true =>
    rw [hp e he]
    rfl

/-- What a change spares does not have the name that is put in or taken out. -/
theorem ne_of_settles?_eq_none {name n : String} {e : Edit} (he : e = .put name ∨ e = .take name)
    (hnone : (e.settles? n == none) = true) : sameName name n = false := by
  rw [sameName_comm]
  cases hn : sameName n name with
  | false => rfl
  | true =>
    obtain rfl | rfl := he <;> (rw [Edit.settles?, hn] at hnone; cases hnone)

theorem ne_of_spares_cons {c : Change} {name : String} {e : Edit} {edits : List Edit}
    (hc : c.edits = e :: edits) (he : e = .put name ∨ e = .take name) (x : Entry)
    (hx : c.spares x = true) : sameName name x.name = false := by
  rw [Change.spares, hc, List.all_cons, Bool.and_eq_true] at hx
  exact ne_of_settles?_eq_none he hx.1

/-- A change leaves the entries alone that it says nothing about, and their order. -/
theorem filter_apply {h : Headers} (hd : Distinct h.names) (c : Change) :
    (c.apply h).entries.filter c.spares = h.entries.filter c.spares := by
  cases c with
  | append name value => exact filter_change (ne_of_spares_cons rfl (.inl rfl)) _ h.entries
  | insert name value => exact filter_change (ne_of_spares_cons rfl (.inl rfl)) _ h.entries
  | insertAll name values => exact filter_change (ne_of_spares_cons rfl (.inl rfl)) _ h.entries
  | insertIfAbsent name value =>
    rw [Change.apply, insertIfAbsent]
    split
    · rfl
    · exact filter_change (ne_of_spares_cons rfl (.inl rfl)) _ h.entries
  | erase name => exact filter_erase hd name (ne_of_spares_cons rfl (.inr rfl))
  | extend other =>
    refine filter_appendAll other.pairs ?_ h
    intro e he q hq
    have hq' := List.all_eq_true.mp he _ (List.mem_map_of_mem (f := fun p => Edit.put p.1) hq)
    exact ne_of_settles?_eq_none (.inl rfl) hq'
  | collect pairs =>
    have hnone : ∀ es : List Entry, es.filter (Change.collect pairs).spares = [] := fun es =>
      List.filter_eq_nil_iff.mpr fun _ _ => Bool.false_ne_true
    rw [hnone, hnone]

/-! ## Pairs -/

theorem change_behind {name : String} {es : List Entry}
    (habsent : (⟨es⟩ : Headers).contains name = false) (f : List String → List String)
    (vs : List String) : change name f (es ++ [⟨name, vs⟩]) = es ++ [⟨name, f vs⟩] := by
  rw [contains, List.any_eq_false] at habsent
  induction es with
  | nil => exact if_pos (sameName_self name)
  | cons e es ih =>
    obtain ⟨he, hes⟩ := List.forall_mem_cons.mp habsent
    rw [List.cons_append, change, if_neg he, ih hes, List.cons_append]

theorem appendAll_behind {name : String} {es : List Entry}
    (habsent : (⟨es⟩ : Headers).contains name = false) (vs ws : List String) :
    (⟨es ++ [⟨name, vs⟩]⟩ : Headers).appendAll (ws.map (name, ·)) = ⟨es ++ [⟨name, vs ++ ws⟩]⟩ := by
  induction ws generalizing vs with
  | nil => rw [List.append_nil, List.map_nil, appendAll, List.foldl_nil]
  | cons w ws ih =>
    rw [List.map_cons, appendAll, List.foldl_cons, append, change_behind habsent,
      List.append_cons vs w ws]
    exact ih (vs ++ [w])

/-- The values of a new name make an entry behind the others, if there are any. -/
theorem appendAll_values {name : String} {es : List Entry}
    (habsent : (⟨es⟩ : Headers).contains name = false) {vs : List String} (hvs : vs ≠ []) :
    (⟨es⟩ : Headers).appendAll (vs.map (name, ·)) = ⟨es ++ [⟨name, vs⟩]⟩ := by
  obtain ⟨v, vs, rfl⟩ := List.exists_cons_of_ne_nil hvs
  rw [List.map_cons, appendAll, List.foldl_cons, append, change_of_absent habsent]
  exact appendAll_behind habsent [v] vs

/-- The pairs of further entries make these entries again, behind those that are there. -/
theorem appendAll_pairs {es fs : List Entry} (hd : Distinct ((es ++ fs).map Entry.name))
    (hfull : ∀ e ∈ fs, e.values ≠ []) :
    (⟨es⟩ : Headers).appendAll (⟨fs⟩ : Headers).pairs = ⟨es ++ fs⟩ := by
  induction fs generalizing es with
  | nil => exact congrArg Headers.mk (List.append_nil es).symm
  | cons e fs ih =>
    obtain ⟨he, hfs⟩ := List.forall_mem_cons.mp hfull
    have habsent : (⟨es⟩ : Headers).contains e.name = false := by
      rw [List.map_append, Distinct, List.pairwise_append] at hd
      refine List.any_eq_false.mpr ?_
      intro x hx
      have hne := hd.2.2 x.name (List.mem_map_of_mem hx) e.name List.mem_cons_self
      rw [sameName_comm, hne]
      exact Bool.false_ne_true
    rw [pairs, List.flatMap_cons, appendAll, List.foldl_append]
    refine (congrArg (List.foldl _ · _) (appendAll_values habsent he)).trans ?_
    rw [List.append_cons es e fs] at hd ⊢
    exact ih hd hfs

theorem ofPairs_pairs {h : Headers} (hd : Distinct h.names)
    (hfull : ∀ e ∈ h.entries, e.values ≠ []) : ofPairs h.pairs = h :=
  (appendAll_pairs hd hfull : (⟨[]⟩ : Headers).appendAll h.pairs = h)

/-! ## Runs -/

/-- **A map that started empty is a plain list with the spellings of its names.** No two of its
names are the same. Its values are those that the changes give to a plain list, so all that is
looked up is found there under the name in lower case. Its names are those that were given to it
for good, as they were spelled then and in that order. A further change keeps all entries that it
says nothing about, in their order. If no entry is without values, then the map is made again of
its pairs. -/
theorem run_holds (changes : List Change) :
    Distinct (run changes).names ∧
      (run changes).plain = changes.foldl Change.onPlain [] ∧
      (∀ n, (run changes).contains n = ((run changes).plain.lookup (lower n)).isSome ∧
        (run changes).getAll n = ((run changes).plain.lookup (lower n)).getD [] ∧
        (run changes).get? n = ((run changes).plain.lookup (lower n)).bind List.head?) ∧
      (run changes).names = founded [] (changes.flatMap Change.edits) ∧
      (∀ c : Change, (run (changes ++ [c])).entries.filter c.spares =
        (run changes).entries.filter c.spares) ∧
      ((∀ e ∈ (run changes).entries, e.values ≠ []) →
        ofPairs (run changes).pairs = run changes) := by
  have hd := distinct_run changes
  refine ⟨hd, plain_run changes, ?_, ?_, ?_, ofPairs_pairs hd⟩
  · intro n
    refine ⟨contains_eq_lookup _ n, ?_, ?_⟩
    · rw [lookup_plain, getAll]
    · rw [lookup_plain, get?, getAll]
      cases entry? (run changes) n <;> rfl
  · rw [names_run]
    exact (foldl_onNames _).1
  · intro c
    rw [run_concat]
    exact filter_apply hd c

/-- A name that comes back under another spelling, behind one that stayed. -/
def sampleChanges : List Change :=
  [.append "Accept" "text/plain", .insertAll "X-Id" ["1", "2"], .append "ACCEPT" "text/html",
    .erase "accept", .insertIfAbsent "ACCEPT" "*/*"]

theorem run_holds_sampleChanges :
    (run sampleChanges).names = ["X-Id", "ACCEPT"] ∧
      founded [] (sampleChanges.flatMap Change.edits) = ["X-Id", "ACCEPT"] ∧
      ofPairs (run sampleChanges).pairs = run sampleChanges := by
  obtain ⟨-, -, -, hnames, -, hpairs⟩ := run_holds sampleChanges
  have hfounded : founded [] (sampleChanges.flatMap Change.edits) = ["X-Id", "ACCEPT"] := by decide
  exact ⟨hnames.trans hfounded, hfounded, hpairs (by decide)⟩

end OData.Headers
