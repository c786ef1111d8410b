import Mathlib.Data.List.TakeWhile
import OData.Link
import OData.Proofs.Text.Pieces
import OData.Proofs.Text.Trim

/-!
# Tokens and the options of a query

A token is looked for in the whole text of a link: it is what stands behind the first place where
its name stands with something behind it (`Link.option?_eq_sighting?`). The option of the query with
that name is looked for piece by piece (`Link.queryOption?`). **Both are the same wherever the first
place is the front of an option and no fragment follows its value** (`Link.tokens_of_link`). They
differ where the name stands in the path, where a longer name ends in it, and where the value runs
on into a fragment.
-/

set_option autoImplicit false

namespace OData

open OData.Text

namespace Link

variable {key name s v : List Char}

/-! ## Options of the query -/

/-- The value of an option that has this name, whatever the case of its letters, and a value. -/
def optionValue? (key option : List Char) : Option (List Char) :=
  (splitFirst '=' option).bind fun (name, value) =>
    if name.map folded = key ∧ value ≠ [] then some value else none

/-- The value of the first option in the query of a link that has this name and a value. -/
def queryOption? (key link : List Char) : Option (List Char) :=
  (query? link).bind fun query => (splitOn '&' query).findSome? (optionValue? key)

/-! ## Places where a name stands -/

/-- What stands behind a name at the start of a text, up to the next ampersand, if there is
anything. -/
def valueAt? (name s : List Char) : Option (List Char) :=
  ((afterName? name s).map (·.takeWhile (· != '&'))).filter (!·.isEmpty)

/-- The first place in a text where a name stands with a value: what is in front of it, and the
value. -/
def sighting? (name : List Char) : List Char → Option (List Char × List Char)
  | [] => none
  | c :: r =>
    match valueAt? name (c :: r) with
    | some v => some ([], v)
    | none => (sighting? name r).map fun (before, v) => (c :: before, v)

theorem option?_cons (name : List Char) (c : Char) (r : List Char) :
    option? name (c :: r) = (valueAt? name (c :: r)).or (option? name r) := by
  rw [option?, valueAt?]
  generalize (afterName? name (c :: r)).map (·.takeWhile (· != '&')) = found
  rcases found with _ | _ | ⟨v, vs⟩ <;> rfl

/-- **A token is the value at the first place where its name stands.** -/
theorem option?_eq_sighting? (name s : List Char) :
    option? name s = (sighting? name s).map Prod.snd := by
  induction s with
  | nil => rfl
  | cons c r ih =>
    rw [option?_cons, sighting?, ih]
    cases valueAt? name (c :: r) with
    | some v => rfl
    | none =>
      rw [Option.none_or, Option.map_map]
      rfl

theorem afterName?_eq_some_iff {rest : List Char} :
    afterName? name s = some rest ↔ ∃ written, s = written ++ rest ∧ written.map folded = name := by
  induction name generalizing s with
  | nil =>
    simp [afterName?, eq_comm]
  | cons n name ih =>
    cases s with
    | nil => simp [afterName?]
    | cons c s =>
      rw [afterName?]
      constructor
      · intro h
        split at h
        · next hc =>
          obtain ⟨written, rfl, hname⟩ := ih.mp h
          exact ⟨c :: written, rfl, by rw [List.map_cons, hc, hname]⟩
        · cases h
      · rintro ⟨written, hs, hname⟩
        cases written with
        | nil => cases hname
        | cons d written =>
          obtain ⟨rfl, rfl⟩ := List.cons.inj hs
          obtain ⟨hc, hname⟩ := List.cons.inj hname
          rw [if_pos hc]
          exact ih.mpr ⟨written, rfl, hname⟩

theorem not_mem_takeWhile_ne (c : Char) (s : List Char) : c ∉ s.takeWhile (· != c) :=
  fun h => bne_iff_ne.mp (List.mem_takeWhile_imp (p := (· != c)) h) rfl

theorem head?_dropWhile_ne (c : Char) (s : List Char) :
    ∀ d ∈ (s.dropWhile (· != c)).head?, d = c := by
  intro d hd
  simpa using head?_dropWhile_false d hd

theorem takeWhile_value {after : List Char} (hv : '&' ∉ v) (hafter : ∀ c ∈ after.head?, c = '&') :
    (v ++ after).takeWhile (· != '&') = v :=
  takeWhile_append_stop (fun _ hc => bne_iff_ne.mpr fun h => hv (h ▸ hc)) fun c hc => by
    simp [hafter c hc]

/-- A name stands at the start of a text with a value that ends at an ampersand or with the text. -/
theorem valueAt?_eq_some_iff : valueAt? name s = some v ↔
    ∃ written after, s = written ++ (v ++ after) ∧ written.map folded = name ∧ v ≠ [] ∧ '&' ∉ v ∧
      ∀ c ∈ after.head?, c = '&' := by
  rw [valueAt?, Option.filter_eq_some_iff, Option.map_eq_some_iff]
  constructor
  · rintro ⟨⟨rest, hrest, rfl⟩, hne⟩
    obtain ⟨written, rfl, hname⟩ := afterName?_eq_some_iff.mp hrest
    refine ⟨written, rest.dropWhile (· != '&'), ?_, hname, by simpa using hne,
      not_mem_takeWhile_ne '&' rest, head?_dropWhile_ne '&' rest⟩
    rw [List.takeWhile_append_dropWhile]
  · rintro ⟨written, after, rfl, hname, hne, hv, hafter⟩
    refine ⟨⟨v ++ after, afterName?_eq_some_iff.mpr ⟨written, rfl, hname⟩, ?_⟩, by simpa using hne⟩
    exact takeWhile_value hv hafter

/-- The name stands with its value where it is sighted. -/
theorem of_sighting? {before : List Char} (h : sighting? name s = some (before, v)) :
    ∃ rest, s = before ++ rest ∧ valueAt? name rest = some v := by
  induction s generalizing before with
  | nil => cases h
  | cons c r ih =>
    rw [sighting?] at h
    split at h
    · next hv =>
      cases h
      exact ⟨c :: r, rfl, hv⟩
    · obtain ⟨⟨before', v'⟩, hr, hsame⟩ := Option.map_eq_some_iff.mp h
      cases hsame
      obtain ⟨rest, rfl, hrest⟩ := ih hr
      exact ⟨rest, rfl, hrest⟩

/-- It stands nowhere before that. -/
theorem sighting?_of_valueAt? {rest : List Char} (h : valueAt? name rest = some v)
    (before : List Char) : ∃ first v', sighting? name (before ++ rest) = some (first, v') ∧
      first.length ≤ before.length := by
  induction before with
  | nil =>
    cases rest with
    | nil =>
      obtain ⟨written, after, hnil, -, hne, -⟩ := valueAt?_eq_some_iff.mp h
      simp_all
    | cons c r =>
      refine ⟨[], v, ?_, Nat.le_refl 0⟩
      rw [List.nil_append, sighting?, h]
  | cons c before ih =>
    obtain ⟨first, v', hfirst, hle⟩ := ih
    rw [List.cons_append, sighting?, hfirst]
    cases valueAt? name (c :: (before ++ rest)) with
    | some w => exact ⟨[], w, rfl, Nat.zero_le _⟩
    | none => exact ⟨c :: first, v', rfl, Nat.succ_le_succ hle⟩

/-! ## Options that stand in a text -/

/-- No letter is the equals sign in another case. -/
theorem eq_of_folded_eq_equals {c : Char} (h : folded c = '=') : c = '=' := by
  unfold folded at h
  split at h
  · cases h
  split at h
  · cases h
  unfold Char.toLower at h
  split at h
  · next hupper =>
    have hlow : 65 ≤ c.toNat := UInt32.le_iff_toNat_le.mp hupper.1
    have hhigh : c.toNat ≤ 90 := UInt32.le_iff_toNat_le.mp hupper.2
    have hcode : (c.toNat + 32) % 4294967296 = 61 := congrArg Char.toNat h
    omega
  · exact h

/-- A character that is left alone is in a name as it is written only if it is in the name. -/
theorem not_mem_of_map_folded {written : List Char} (h : written.map folded = name) {c : Char}
    (hc : folded c = c) (hname : c ∉ name) : c ∉ written := by
  intro hmem
  rw [← h] at hname
  exact hname (hc ▸ List.mem_map_of_mem hmem)

/-- An option of the query stands in the text as the name with an equals sign and a value, which
may be longer there. -/
theorem valueAt?_of_optionValue? {option : List Char} (h : optionValue? key option = some v)
    (hamp : '&' ∉ option) (after : List Char) :
    ∃ v', valueAt? (key ++ ['=']) (option ++ after) = some v' := by
  obtain ⟨⟨written, value⟩, hcut, hif⟩ := Option.bind_eq_some_iff.mp h
  obtain ⟨⟨hname, hne⟩, hv⟩ := Option.ite_none_right_eq_some.mp hif
  obtain rfl := Option.some.inj hv
  obtain rfl := eq_of_splitFirst hcut
  refine ⟨value ++ after.takeWhile (· != '&'), valueAt?_eq_some_iff.mpr
    ⟨written ++ ['='], after.dropWhile (· != '&'), ?_, ?_, ?_, ?_, head?_dropWhile_ne '&' after⟩⟩
  · simp [List.takeWhile_append_dropWhile]
  · rw [List.map_append, hname]
    rfl
  · simp [hne]
  · rw [List.mem_append, not_or]
    exact ⟨fun hmem => hamp (by simp [hmem]), not_mem_takeWhile_ne '&' after⟩

theorem optionValue?_of_written {written : List Char} (hkey : '=' ∉ key)
    (h : written.map folded = key ++ ['=']) (hne : v ≠ []) :
    optionValue? key (written ++ v) = some v := by
  obtain ⟨front, last, rfl, hfront, hlast⟩ := List.map_eq_append_iff.mp h
  obtain ⟨c, rfl, hc⟩ := List.map_eq_singleton_iff.mp hlast
  obtain rfl := eq_of_folded_eq_equals hc
  have hnone := not_mem_of_map_folded hfront (by decide) hkey
  rw [optionValue?, List.append_assoc, List.singleton_append, splitFirst_append_cons hnone,
    Option.bind_some]
  exact if_pos ⟨hfront, hne⟩

/-! ## The query in the text -/

theorem getD_splitFirst (sep : Char) (s : List Char) :
    ((splitFirst sep s).map Prod.fst).getD s = s.takeWhile (· != sep) := by
  induction s with
  | nil => rfl
  | cons c s ih =>
    rw [splitFirst]
    by_cases hc : c = sep
    · rw [if_pos hc, List.takeWhile_cons_of_neg (by simp [hc])]
      rfl
    · rw [if_neg hc, List.takeWhile_cons_of_pos (by simp [hc]), ← ih]
      cases splitFirst sep s <;> rfl

theorem query?_eq (link : List Char) :
    query? link = (splitFirst '?' link).map fun (_, rest) => rest.takeWhile (· != '#') := by
  unfold query?
  refine congrArg (Option.map · _) (funext fun p => ?_)
  exact getD_splitFirst '#' p.2

/-- An option in the query makes its name stand in the link, at the option or before it. -/
theorem sighting?_of_mem {query option : List Char} (hmem : option ∈ splitOn '&' query)
    (h : optionValue? key option = some v) (path rest : List Char) :
    ∃ first v', sighting? (key ++ ['=']) (path ++ '?' :: (query ++ rest)) = some (first, v') ∧
      first.length ≤ (path ++ '?' :: query).length := by
  obtain ⟨before, after, rfl⟩ := isInfix_of_mem_splitOn hmem
  obtain ⟨v', hv'⟩ := valueAt?_of_optionValue? h (mem_splitOn hmem).1 (after ++ rest)
  obtain ⟨first, v'', hfirst, hle⟩ := sighting?_of_valueAt? hv' (path ++ '?' :: before)
  refine ⟨first, v'', ?_, ?_⟩
  · simpa using hfirst
  · simp only [List.length_append, List.length_cons] at hle ⊢
    omega

/-- Whether what is in front of a place makes it the front of an option of the query. -/
def isOptionFront (before : List Char) : Bool :=
  match splitFirst '?' before with
  | none => false
  | some (_, query) => '#' ∉ query ∧ (query = [] ∨ query.getLast? = some '&')

/-- Whether the first place where a name stands is the front of an option of the query, and no
fragment begins in the value behind it; or the name stands nowhere. -/
def isClear (key link : List Char) : Bool :=
  (sighting? (key ++ ['=']) link).all fun (before, v) => isOptionFront before ∧ '#' ∉ v

theorem queryOption?_of_no_sighting {link : List Char}
    (h : sighting? (key ++ ['=']) link = none) : queryOption? key link = none := by
  cases hoption : queryOption? key link with
  | none => rfl
  | some v =>
    obtain ⟨query, hquery, hfind⟩ := Option.bind_eq_some_iff.mp hoption
    rw [query?_eq] at hquery
    obtain ⟨⟨path, rest⟩, hcut, rfl⟩ := Option.map_eq_some_iff.mp hquery
    obtain ⟨option, hmem, hvalue⟩ := List.exists_of_findSome?_eq_some hfind
    obtain ⟨first, v', hfirst, -⟩ :=
      sighting?_of_mem hmem hvalue path (rest.dropWhile (· != '#'))
    rw [List.takeWhile_append_dropWhile, ← eq_of_splitFirst hcut, h] at hfirst
    cases hfirst

/-- The first option behind a place that is the front of one reaches to the next ampersand. -/
theorem splitOn_option {option after : List Char} (hamp : '&' ∉ option)
    (hafter : ∀ c ∈ after.head?, c = '&') :
    ∃ options, splitOn '&' (option ++ after) = option :: options := by
  cases after with
  | nil => exact ⟨[], by rw [List.append_nil, splitOn_of_not_mem hamp]⟩
  | cons c r =>
    obtain rfl := hafter c rfl
    exact ⟨_, splitOn_append_cons hamp r⟩

/-- The query of a link goes on behind its front until a fragment begins. -/
theorem query?_of_front {before path front option : List Char}
    (hcut : splitFirst '?' before = some (path, front)) (hfront : '#' ∉ front)
    (hoption : '#' ∉ option) (after : List Char) :
    query? (before ++ (option ++ after)) =
      some (front ++ (option ++ after.takeWhile (· != '#'))) := by
  have hkept : ∀ c ∈ front ++ option, (c != '#') = true := by
    intro c hc
    rw [bne_iff_ne]
    rintro rfl
    simp [hfront, hoption] at hc
  rw [query?_eq, splitFirst_append_of_some hcut, Option.map_some]
  dsimp only
  rw [← List.append_assoc, List.takeWhile_append_of_pos hkept, List.append_assoc]

/-- No option with this name ends in front of the place where the name is sighted. -/
theorem findSome?_eq_none_of_sighting {path earlier rest before : List Char}
    (h : sighting? (key ++ ['=']) (path ++ '?' :: (earlier ++ rest)) = some (before, v))
    (hlength : (path ++ '?' :: earlier).length < before.length) :
    (splitOn '&' earlier).findSome? (optionValue? key) = none := by
  refine List.findSome?_eq_none_iff.mpr fun option hmem => ?_
  cases hoption : optionValue? key option with
  | none => rfl
  | some w =>
    obtain ⟨first, v', hfirst, hle⟩ := sighting?_of_mem hmem hoption path rest
    rw [h] at hfirst
    cases hfirst
    exact absurd hlength (Nat.not_lt.mpr hle)

theorem queryOption?_of_sighting {link before : List Char} (hequals : '=' ∉ key) (hhash : '#' ∉ key)
    (hamp : '&' ∉ key) (h : sighting? (key ++ ['=']) link = some (before, v))
    (hfront : isOptionFront before = true) (hfragment : '#' ∉ v) :
    queryOption? key link = some v := by
  obtain ⟨rest, rfl, hvalue⟩ := of_sighting? h
  obtain ⟨written, after, rfl, hname, hne, hvamp, hafter⟩ := valueAt?_eq_some_iff.mp hvalue
  unfold isOptionFront at hfront
  split at hfront
  · cases hfront
  next path front hcut =>
  obtain ⟨hplain, hlast⟩ := of_decide_eq_true hfront
  have hwhash : '#' ∉ written := not_mem_of_map_folded hname (by decide) (by simp [hhash])
  have hwamp : '&' ∉ written := not_mem_of_map_folded hname (by decide) (by simp [hamp])
  have hwhole : '#' ∉ written ++ v := by simp [hwhash, hfragment]
  have hend : ∀ c ∈ (after.takeWhile (· != '#')).head?, c = '&' := by
    cases after with
    | nil => exact nofun
    | cons c r =>
      obtain rfl := hafter c rfl
      exact fun c hc => (Option.some.inj hc).symm
  have hfound : (splitOn '&' (written ++ v ++ after.takeWhile (· != '#'))).findSome?
      (optionValue? key) = some v := by
    obtain ⟨options, hoptions⟩ :=
      splitOn_option (show '&' ∉ written ++ v by simp [hwamp, hvamp]) hend
    rw [hoptions, List.findSome?_cons, optionValue?_of_written hequals hname hne]
  rw [← List.append_assoc written, queryOption?, query?_of_front hcut hplain hwhole,
    Option.bind_some]
  rcases hlast with rfl | hlast
  · exact hfound
  · -- Options in front end with an ampersand, before the place of the sighting.
    obtain ⟨earlier, rfl⟩ := List.getLast?_eq_some_iff.mp hlast
    rw [eq_of_splitFirst hcut, List.append_assoc path, List.cons_append, List.append_assoc] at h
    have hnone := findSome?_eq_none_of_sighting h (by simp)
    rw [List.append_assoc, List.singleton_append, splitOn_append_sep, List.findSome?_append, hnone]
    exact hfound

theorem option?_of_clear {link : List Char} (key : List Char) (hequals : '=' ∉ key)
    (hhash : '#' ∉ key) (hamp : '&' ∉ key) (h : isClear key link = true) :
    option? (key ++ ['=']) link = queryOption? key link := by
  rw [option?_eq_sighting?]
  cases hsighted : sighting? (key ++ ['=']) link with
  | none => exact (queryOption?_of_no_sighting hsighted).symm
  | some sighted =>
    rw [isClear, hsighted] at h
    obtain ⟨hfront, hfragment⟩ := of_decide_eq_true h
    exact (queryOption?_of_sighting hequals hhash hamp hsighted hfront hfragment).symm

/-- **A token is the value of the option of the query with its name**, if the first place in the
link where its name stands with a value is the front of an option, and no fragment begins in the
value. In any case it is the value at that place. -/
theorem tokens_of_link (link : List Char) :
    (deltaToken? link = (sighting? "$deltatoken=".toList link).map Prod.snd ∧
      skipToken? link = (sighting? "$skiptoken=".toList link).map Prod.snd) ∧
    (isClear "$deltatoken".toList link = true →
      deltaToken? link = queryOption? "$deltatoken".toList link) ∧
    (isClear "$skiptoken".toList link = true →
      skipToken? link = queryOption? "$skiptoken".toList link) :=
  ⟨⟨option?_eq_sighting? _ link, option?_eq_sighting? _ link⟩,
    option?_of_clear "$deltatoken".toList (by decide) (by decide) (by decide),
    option?_of_clear "$skiptoken".toList (by decide) (by decide) (by decide)⟩

/-- Both tokens, in other cases of the letters, behind an option that has no value and before a
fragment. -/
def pagedLink : List Char :=
  "/svc/People?$top=5&$skiptoken=&$SkipTo\u212aen=a=b?&$DELTATOKEN=d42&n=1#$skiptoken=2".toList

theorem tokens_of_pagedLink :
    isClear "$skiptoken".toList pagedLink = true ∧
      skipToken? pagedLink = some "a=b?".toList ∧
      skipToken? pagedLink = queryOption? "$skiptoken".toList pagedLink ∧
      deltaToken? pagedLink = queryOption? "$deltatoken".toList pagedLink :=
  ⟨by decide, by decide, (tokens_of_link pagedLink).2.2 (by decide),
    (tokens_of_link pagedLink).2.1 (by decide)⟩

/-- The name stands in the value of a token where a fragment has begun, at the end of another name,
and in a path. -/
theorem tokens_astray :
    let fragmented := "/svc/People?$skiptoken=abc#frag".toList
    let longer := "/svc/People?x$skiptoken=5&$skiptoken=7".toList
    let path := "/svc/$skiptoken=1/People".toList
    (skipToken? fragmented = some "abc#frag".toList ∧
      queryOption? "$skiptoken".toList fragmented = some "abc".toList) ∧
    (skipToken? longer = some "5".toList ∧
      queryOption? "$skiptoken".toList longer = some "7".toList) ∧
    skipToken? path = some "1/People".toList ∧ queryOption? "$skiptoken".toList path = none := by
  decide

end Link

end OData
