import Mathlib.Data.List.Induction
import OData.Proofs.Headers

/-!
# Where the names of a map come from

What happens to the names of a map is a history of edits: a name is put in, a name is taken out, or
all of them are. A name is there if the last edit that says anything about it has put it in
(`Headers.isThere`). **The names of a map are those that were put in while they were not there and
that nothing has taken out since: each as it was spelled then, in the order of these edits**
(`Headers.foldl_onNames`).
-/

set_option autoImplicit false

namespace OData.Headers

open OData.Text

inductive Edit where
  | put (name : String)
  | take (name : String)
  | clear
  deriving DecidableEq, Repr

namespace Edit

/-- Whether a name is there after an edit, if the edit says anything about it. -/
def settles? (n : String) : Edit → Option Bool
  | put name => if sameName n name then some true else none
  | take name => if sameName n name then some false else none
  | clear => some false

/-- The names after an edit. A name that is there keeps its spelling and its place. -/
def onNames (names : List String) : Edit → List String
  | put name => if names.any (sameName name) then names else names ++ [name]
  | take name => names.filter (!sameName name ·)
  | clear => []

end Edit

/-- Whether a name is there after some edits: the last one that says anything about it decides. -/
def isThere (edits : List Edit) (n : String) : Bool :=
  (edits.reverse.findSome? (Edit.settles? n)).getD false

/-- The name that an edit gives to the map for good, as it is spelled there: one that is not there
before and is not taken out behind it. -/
def Edit.founds (before after : List Edit) : Edit → List String
  | put name =>
    if isThere before name || after.any (·.settles? name == some false) then [] else [name]
  | take _ | clear => []

/-- The names that some edits give to the map for good, in the order of the edits. -/
def founded (before : List Edit) : List Edit → List String
  | [] => []
  | e :: after => e.founds before after ++ founded (before ++ [e]) after

/-! ## Histories -/

theorem isThere_concat (edits : List Edit) (e : Edit) (n : String) :
    isThere (edits ++ [e]) n = (e.settles? n).getD (isThere edits n) := by
  unfold isThere
  rw [List.reverse_append, List.reverse_singleton, List.singleton_append, List.findSome?_cons]
  cases e.settles? n <;> rfl

/-- What a further edit takes out of the map was not given to it for good. -/
theorem founds_concat (before after : List Edit) (e x : Edit) :
    e.founds before (after ++ [x]) =
      (e.founds before after).filter (x.settles? · != some false) := by
  cases e with
  | take name => rfl
  | clear => rfl
  | put name =>
    rw [Edit.founds, Edit.founds, List.any_append, List.any_cons, List.any_nil, Bool.or_false,
      ← Bool.or_assoc]
    cases isThere before name || after.any (·.settles? name == some false) with
    | true => rfl
    | false =>
      rw [Bool.false_or, if_neg Bool.false_ne_true, List.filter_cons, List.filter_nil, bne]
      cases x.settles? name == some false <;> rfl

theorem founded_concat (before edits : List Edit) (x : Edit) :
    founded before (edits ++ [x]) =
      (founded before edits).filter (x.settles? · != some false) ++
        x.founds (before ++ edits) [] := by
  induction edits generalizing before with
  | nil =>
    rw [List.append_nil]
    exact List.append_nil _
  | cons e edits ih =>
    rw [List.cons_append, founded, founded, ih, founds_concat, List.filter_append,
      List.append_assoc, List.append_assoc, List.singleton_append]

/-! ## Names -/

theorem any_sameName_congr {a b : String} (h : sameName a b = true) (names : List String) :
    names.any (sameName a) = names.any (sameName b) := by
  refine congrArg names.any (funext ?_)
  intro n
  rw [sameName_comm a, sameName_comm b, sameName_congr h]

/-- A name is there after an edit as the edit says, or else as it was before. -/
theorem any_onNames (names : List String) (e : Edit) (n : String) :
    (e.onNames names).any (sameName n) = (e.settles? n).getD (names.any (sameName n)) := by
  cases e with
  | clear => rfl
  | put name =>
    rw [Edit.onNames, Edit.settles?]
    by_cases hn : sameName n name = true
    · rw [if_pos hn, any_sameName_congr hn]
      split
      · next hthere => exact hthere
      · rw [List.any_append, List.any_cons, sameName_self, Bool.true_or, Bool.or_true]
        rfl
    · rw [if_neg hn]
      split
      · rfl
      · rw [List.any_append, List.any_cons, Bool.eq_false_iff.mpr hn, List.any_nil, Bool.or_false,
          Bool.or_false]
        rfl
  | take name =>
    rw [Edit.onNames, Edit.settles?, List.any_filter]
    by_cases hn : sameName n name = true
    · rw [if_pos hn]
      refine List.any_eq_false.mpr ?_
      intro m _
      rw [sameName_comm name, sameName_comm n m, sameName_congr hn, Bool.not_and_self]
      exact Bool.false_ne_true
    · rw [if_neg hn]
      refine congrArg names.any (funext ?_)
      intro m
      cases hm : sameName n m with
      | false => exact Bool.and_false _
      | true =>
        -- A name that is `n` is not the one that is taken out.
        rw [← sameName_congr hm name, sameName_comm name, Bool.eq_false_iff.mpr hn]
        rfl

/-- No two names are the same. -/
def Distinct (names : List String) : Prop := names.Pairwise fun a b => sameName a b = false

theorem distinct_onNames {names : List String} (h : Distinct names) (e : Edit) :
    Distinct (e.onNames names) := by
  cases e with
  | clear => exact .nil
  | take name => exact h.filter _
  | put name =>
    rw [Edit.onNames]
    split
    · exact h
    · next hthere =>
      refine List.pairwise_append.mpr ⟨h, List.pairwise_singleton _ _, ?_⟩
      intro a ha b hb
      rw [List.mem_singleton.mp hb, sameName_comm]
      exact Bool.eq_false_iff.mpr fun hsame => hthere (List.any_eq_true.mpr ⟨a, ha, hsame⟩)

/-- An edit leaves the names that it does not take out, and adds the one that it gives. -/
theorem onNames_eq {names : List String} {edits : List Edit}
    (hthere : ∀ n, names.any (sameName n) = isThere edits n) (e : Edit) :
    e.onNames names = names.filter (e.settles? · != some false) ++ e.founds edits [] := by
  cases e with
  | clear =>
    refine Eq.trans ?_ (List.append_nil _).symm
    exact (List.filter_eq_nil_iff.mpr fun _ _ => Bool.false_ne_true).symm
  | take name =>
    refine Eq.trans ?_ (List.append_nil _).symm
    refine List.filter_congr ?_
    intro n _
    rw [Edit.settles?, sameName_comm]
    cases sameName n name <;> rfl
  | put name =>
    have hkeep : names.filter ((Edit.put name).settles? · != some false) = names := by
      refine List.filter_eq_self.mpr ?_
      intro n _
      rw [Edit.settles?]
      cases sameName n name <;> rfl
    rw [hkeep, Edit.onNames, Edit.founds, List.any_nil, Bool.or_false, hthere]
    cases isThere edits name with
    | true => exact (List.append_nil _).symm
    | false => rfl

/-- **The names of a map are those that were given to it for good**: no two of them are the same,
and one is there if the last edit that says anything about it has put it in. -/
theorem foldl_onNames (edits : List Edit) :
    edits.foldl Edit.onNames [] = founded [] edits ∧
      Distinct (edits.foldl Edit.onNames []) ∧
      ∀ n, (edits.foldl Edit.onNames []).any (sameName n) = isThere edits n := by
  induction edits using List.reverseRecOn with
  | nil => exact ⟨rfl, .nil, fun _ => rfl⟩
  | append_singleton edits x ih =>
    obtain ⟨hfounded, hdistinct, hthere⟩ := ih
    rw [List.foldl_append, List.foldl_cons, List.foldl_nil]
    refine ⟨?_, distinct_onNames hdistinct x, ?_⟩
    · rw [founded_concat, List.nil_append, ← hfounded]
      exact onNames_eq hthere x
    · intro n
      rw [any_onNames, isThere_concat, hthere]

end OData.Headers
