import OData.Text.Split

/-!
# Commas outside quotes

Where quotes come in pairs, a comma that an even number of them stand before is outside all of
them, and `splitUnquoted` cuts a text at such commas alone. A text is *sealed* if all its commas
are inside quotes and it leaves no quote open (`Sealed`). **Sealed texts with commas between them
come back when they are cut apart** (`splitUnquoted_joinWith`).
-/

set_option autoImplicit false

namespace OData.Text

/-- The number of quotes that have been passed behind one more character. -/
def quotesAfter (quotes : Nat) (c : Char) : Nat := if c = '\'' then quotes + 1 else quotes

/-- The pieces of a text between the commas that an even number of quotes stand before; so many
quotes have been passed before the text. -/
def splitUnquoted (quotes : Nat) : List Char → List (List Char)
  | [] => [[]]
  | c :: r =>
    if c = ',' ∧ quotes % 2 = 0 then [] :: splitUnquoted quotes r
    else
      match splitUnquoted (quotesAfter quotes c) r with
      | [] => [[c]]
      | p :: ps => (c :: p) :: ps

/-- Behind so many quotes, every comma of a text has an odd number of them before it. -/
def CommasQuoted (quotes : Nat) : List Char → Prop
  | [] => True
  | c :: r => (c = ',' → quotes % 2 = 1) ∧ CommasQuoted (quotesAfter quotes c) r

/-- Behind closed quotes, all commas of the text are quoted, and it leaves no quote open. -/
structure Sealed (s : List Char) : Prop where
  commas : ∀ n, n % 2 = 0 → CommasQuoted n s
  closed : s.count '\'' % 2 = 0

/-- A text without commas and quotes. -/
def Bare (s : List Char) : Prop := ∀ c ∈ s, c ≠ ',' ∧ c ≠ '\''

instance (s : List Char) : Decidable (Bare s) := List.decidableBAll _ s

@[simp] theorem quotesAfter_quote (n : Nat) : quotesAfter n '\'' = n + 1 := by simp [quotesAfter]

theorem quotesAfter_of_ne {c : Char} (h : c ≠ '\'') (n : Nat) : quotesAfter n c = n := if_neg h

/-- It does not matter whether the first character is passed before the count or counted. -/
theorem quotesAfter_add_count (n : Nat) (c : Char) (s : List Char) :
    quotesAfter n c + s.count '\'' = n + (c :: s).count '\'' := by
  by_cases hc : c = '\''
  · rw [hc, quotesAfter_quote, List.count_cons_self, Nat.add_right_comm, Nat.add_assoc]
  · rw [quotesAfter_of_ne hc, List.count_cons_of_ne hc]

/-! ## Bare texts -/

@[simp] theorem bare_nil : Bare [] := by simp [Bare]

@[simp] theorem bare_cons {c : Char} {s : List Char} :
    Bare (c :: s) ↔ (c ≠ ',' ∧ c ≠ '\'') ∧ Bare s := List.forall_mem_cons

@[simp] theorem bare_append {s t : List Char} : Bare (s ++ t) ↔ Bare s ∧ Bare t :=
  List.forall_mem_append

namespace Bare

theorem of_subset {s t : List Char} (ht : Bare t) (h : s ⊆ t) : Bare s := fun c hc => ht c (h hc)

theorem count {s : List Char} (h : Bare s) : s.count '\'' = 0 :=
  List.count_eq_zero.mpr fun hs => (h _ hs).2 rfl

end Bare

/-! ## Quoted commas -/

@[simp] theorem commasQuoted_nil (n : Nat) : CommasQuoted n [] := trivial

@[simp] theorem commasQuoted_cons {n : Nat} {c : Char} {s : List Char} :
    CommasQuoted n (c :: s) ↔ (c = ',' → n % 2 = 1) ∧ CommasQuoted (quotesAfter n c) s := Iff.rfl

namespace CommasQuoted

theorem of_not_mem {s : List Char} (h : ',' ∉ s) (n : Nat) : CommasQuoted n s := by
  induction s generalizing n with
  | nil => trivial
  | cons c s ih =>
    rw [List.mem_cons, not_or] at h
    exact ⟨fun hc => absurd hc.symm h.1, ih h.2 _⟩

/-- Behind a text, the quotes of that text have been passed too. -/
theorem append {n : Nat} {s t : List Char} (hs : CommasQuoted n s)
    (ht : CommasQuoted (n + s.count '\'') t) : CommasQuoted n (s ++ t) := by
  induction s generalizing n with
  | nil => exact ht
  | cons c s ih =>
    rw [← quotesAfter_add_count] at ht
    exact ⟨hs.1, ih hs.2 ht⟩

end CommasQuoted

namespace Sealed

/-- A sealed text leaves no quote open, so nothing changes for what comes behind it. -/
theorem append {s t : List Char} (hs : Sealed s) (ht : Sealed t) : Sealed (s ++ t) where
  commas n hn := by
    have hclosed := hs.closed
    refine (hs.commas n hn).append (ht.commas _ ?_)
    omega
  closed := by
    have hleft := hs.closed
    have hright := ht.closed
    rw [List.count_append]
    omega

theorem of_bare {s : List Char} (h : Bare s) : Sealed s where
  commas n _ := .of_not_mem (fun hs => (h _ hs).1 rfl) n
  closed := by rw [h.count]

/-- Quotes around a bare text make no difference. -/
theorem of_quoted {s : List Char} (h : Bare s) : Sealed ('\'' :: s ++ ['\'']) where
  commas n _ := by
    refine .of_not_mem ?_ n
    intro hs
    simp only [List.cons_append, List.mem_cons, List.mem_append, List.not_mem_nil, or_false] at hs
    rcases hs with hs | hs | hs
    · cases hs
    · exact (h _ hs).1 rfl
    · cases hs
  closed := by simp [List.count_append, h.count]

end Sealed

/-! ## Cutting -/

/-- Cutting goes on behind a text whose commas are quoted, with the quotes of that text passed. -/
theorem splitUnquoted_append {n : Nat} {p : List Char} (h : CommasQuoted n p)
    {r q : List Char} {qs : List (List Char)}
    (hr : splitUnquoted (n + p.count '\'') r = q :: qs) :
    splitUnquoted n (p ++ r) = (p ++ q) :: qs := by
  induction p generalizing n with
  | nil => exact hr
  | cons c p ih =>
    obtain ⟨hcomma, hp⟩ := h
    rw [← quotesAfter_add_count] at hr
    have hkeep : ¬ (c = ',' ∧ n % 2 = 0) := by
      rintro ⟨hc, hn⟩
      have hodd := hcomma hc
      omega
    rw [List.cons_append, splitUnquoted, if_neg hkeep, ih hp hr]
    rfl

/-- **Sealed texts are found again between the commas that join them.** -/
theorem splitUnquoted_joinWith {ps : List (List Char)} (hne : ps ≠ []) (h : ∀ p ∈ ps, Sealed p)
    {n : Nat} (hn : n % 2 = 0) : splitUnquoted n (joinWith [','] ps) = ps := by
  induction ps generalizing n with
  | nil => exact absurd rfl hne
  | cons p ps ih =>
    obtain ⟨hp, hps⟩ := List.forall_mem_cons.mp h
    have hclosed := hp.closed
    have heven : (n + p.count '\'') % 2 = 0 := by omega
    cases ps with
    | nil =>
      have hrest := splitUnquoted_append (hp.commas n hn) (r := []) rfl
      simpa [joinWith] using hrest
    | cons q ps =>
      -- The comma behind `p` is not quoted, so a new piece begins there.
      have hcut : splitUnquoted (n + p.count '\'') (',' :: joinWith [','] (q :: ps)) =
          [] :: q :: ps := by
        rw [splitUnquoted, if_pos ⟨rfl, heven⟩, ih (by simp) hps heven]
      have hrest := splitUnquoted_append (hp.commas n hn) hcut
      rw [List.append_nil] at hrest
      rw [joinWith, List.append_assoc]
      exact hrest

end OData.Text
