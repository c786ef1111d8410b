import OData.Text.Ascii
import OData.Text.Split

/-!
# Media types

The value of a content type header: a type and a subtype made of token characters, and parameters,
each a name, an equals sign and either a token or a text in quotes. The form is strict: a blank is
allowed only before a parameter and after a quoted value. Names are compared without regard to
case, and of several parameters of one name the first counts.
-/

set_option autoImplicit false

namespace OData

open OData.Text

/-- A media type. The essence (type and subtype) and the names are in small letters. -/
structure MediaType where
  essence : String
  parameters : List (String × String)
  deriving DecidableEq, Repr

namespace MediaType

def isTokenChar (c : Char) : Bool := c.isAlphanum || "!#$%&'*+-.^_`|~".toList.contains c

/-- A character inside quotes: anything but control characters of ASCII. -/
def isQuotedChar (c : Char) : Bool := c.toNat > 31 && c.toNat != 127

def token (s : List Char) : List Char × List Char := (s.takeWhile isTokenChar, s.dropWhile isTokenChar)

/-- The rest of a quoted text whose first character, if it has one, is taken whatever it is. -/
def quotedRest : List Char → Option (List Char × List Char)
  | [] => none
  | '"' :: r => some ([], r)
  | c :: r => if isQuotedChar c then (quotedRest r).map fun (v, t) => (c :: v, t) else none

/-- A quoted text after its opening quote, and what follows the closing one. A quote in the first
place is part of the text. -/
def quotedText : List Char → Option (List Char × List Char)
  | [] => none
  | c :: r => if isQuotedChar c then (quotedRest r).map fun (v, t) => (c :: v, t) else none

/-- What follows the semicolon after a quoted value; blanks may stand before it. -/
def afterQuoted (s : List Char) : Option (List Char) :=
  match s.dropWhile (· == ' ') with
  | [] => some []
  | ';' :: r => some r
  | _ => none

/-- The value of a parameter and what follows the semicolon after it. A token may be empty only at
the end. -/
def value (s : List Char) : Option (List Char × List Char) :=
  match s with
  | '"' :: r => (quotedText r).bind fun (v, t) => (afterQuoted t).map (v, ·)
  | _ =>
    match token s with
    | (v, []) => some (v, [])
    | (v, c :: r) => if c = ';' ∧ v ≠ [] then some (v, r) else none

def parameter (s : List Char) : Option ((List Char × List Char) × List Char) :=
  match token s with
  | (name, '=' :: r) => if name = [] then none else (value r).map fun (v, t) => ((name, v), t)
  | _ => none

theorem length_quotedRest {s v t : List Char} (h : quotedRest s = some (v, t)) :
    t.length < s.length := by
  induction s generalizing v t with
  | nil => simp [quotedRest] at h
  | cons c r ih =>
    unfold quotedRest at h
    split at h
    · simp at h
    · next heq =>
      simp only [List.cons.injEq] at heq
      simp only [Option.some.injEq, Prod.mk.injEq] at h
      simp [← h.2, ← heq.2]
    · next heq =>
      simp only [List.cons.injEq] at heq
      obtain ⟨rfl, rfl⟩ := heq
      split at h
      · obtain ⟨⟨v', t'⟩, hq, he⟩ := Option.map_eq_some_iff.1 h
        simp only [Prod.mk.injEq] at he
        have := ih hq
        simp only [← he.2, List.length_cons]
        omega
      · simp at h

theorem length_quotedText {s v t : List Char} (h : quotedText s = some (v, t)) :
    t.length < s.length := by
  cases s with
  | nil => simp [quotedText] at h
  | cons c r =>
    simp only [quotedText] at h
    split at h
    · obtain ⟨⟨a, b⟩, hr, hb⟩ := Option.map_eq_some_iff.1 h
      have := length_quotedRest hr
      simp only [Prod.mk.injEq] at hb
      simp only [← hb.2, List.length_cons]
      omega
    · simp at h

theorem length_afterQuoted {s t : List Char} (h : afterQuoted s = some t) :
    t.length ≤ s.length := by
  have hd : (s.dropWhile (· == ' ')).length ≤ s.length := (List.dropWhile_sublist _).length_le
  unfold afterQuoted at h
  split at h
  · simp only [Option.some.injEq] at h; subst h; exact Nat.zero_le _
  · next r heq =>
    simp only [Option.some.injEq] at h
    rw [heq, List.length_cons] at hd
    subst h
    omega
  · simp at h

theorem length_value {s v t : List Char} (h : value s = some (v, t)) : t.length ≤ s.length := by
  unfold value at h
  split at h
  · next r =>
    obtain ⟨⟨v', t'⟩, hq, hv⟩ := Option.bind_eq_some_iff.1 h
    obtain ⟨u, hu, he⟩ := Option.map_eq_some_iff.1 hv
    simp only [Prod.mk.injEq] at he
    have h1 := length_quotedText hq
    have h2 := length_afterQuoted hu
    simp only [← he.2, List.length_cons]
    omega
  · have hd : (s.dropWhile isTokenChar).length ≤ s.length := (List.dropWhile_sublist _).length_le
    simp only [token] at h
    split at h
    · simp only [Option.some.injEq, Prod.mk.injEq] at h
      rw [← h.2]
      exact Nat.zero_le _
    · next v' c r heq =>
      simp only [Prod.mk.injEq] at heq
      split at h
      · simp only [Option.some.injEq, Prod.mk.injEq] at h
        rw [heq.2, List.length_cons] at hd
        simp only [← h.2]
        omega
      · simp at h

theorem length_parameter {s : List Char} {p : List Char × List Char} {t : List Char}
    (h : parameter s = some (p, t)) : t.length < s.length := by
  unfold parameter at h
  have hd : (s.dropWhile isTokenChar).length ≤ s.length := (List.dropWhile_sublist _).length_le
  simp only [token] at h
  split at h
  · next name r heq =>
    simp only [Prod.mk.injEq] at heq
    rw [heq.2] at hd
    split at h
    · simp at h
    · obtain ⟨⟨v, u⟩, hv, he⟩ := Option.map_eq_some_iff.1 h
      simp only [Prod.mk.injEq] at he
      have := length_value hv
      simp at hd
      simp only [← he.2]
      omega
  · simp at h

/-- Parameters up to the end. Blanks before a parameter are skipped. -/
def parametersOf (s : List Char) : Option (List (List Char × List Char)) :=
  let s' := s.dropWhile (· == ' ')
  if s' = [] then some []
  else
    match _h : parameter s' with
    | none => none
    | some (p, t) => (parametersOf t).map (p :: ·)
termination_by s.length
decreasing_by
  have h1 := length_parameter _h
  have h2 : (s.dropWhile (· == ' ')).length ≤ s.length := (List.dropWhile_sublist _).length_le
  exact Nat.lt_of_lt_of_le h1 h2

def parse? (s : String) : Option MediaType :=
  if s = "*/*" then some ⟨s, []⟩
  else
    match token s.toList with
    | (type, '/' :: r) =>
      if type = [] then none
      else
        let make (subtype : List Char) (ps : List (List Char × List Char)) : MediaType :=
          { essence := lower (String.ofList (type ++ '/' :: subtype))
            parameters := ps.map fun (n, v) => (lower (String.ofList n), String.ofList v) }
        match token r with
        | (subtype, []) => some (make subtype [])
        | (subtype, c :: t) =>
          if c = ';' ∧ subtype ≠ [] then (parametersOf t).map (make subtype) else none
    | _ => none

def parameter? (m : MediaType) (name : String) : Option String :=
  (m.parameters.find? (·.1 == name)).map Prod.snd

end MediaType

end OData
