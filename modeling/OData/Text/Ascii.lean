/-!
# Letter case of ASCII

Header names, media types and charset names are compared without regard to the case of the letters
`A` to `Z`, and of no others.
-/

set_option autoImplicit false

namespace OData.Text

def lower (s : String) : String := String.ofList (s.toList.map Char.toLower)

def sameName (a b : String) : Bool := lower a == lower b

@[simp] theorem sameName_self (a : String) : sameName a a = true := by simp [sameName]

theorem sameName_comm (a b : String) : sameName a b = sameName b a := by
  rw [sameName, sameName, Bool.eq_iff_iff, beq_iff_eq, beq_iff_eq]
  exact ⟨Eq.symm, Eq.symm⟩

/-- Whether `needle` occurs in `hay` as a run of consecutive members. -/
def occursIn {α : Type} [DecidableEq α] (needle : List α) : List α → Bool
  | [] => needle.isEmpty
  | a :: r => needle.isPrefixOf (a :: r) || occursIn needle r

def dropPrefix? {α : Type} [DecidableEq α] : List α → List α → Option (List α)
  | [], hay => some hay
  | _ :: _, [] => none
  | a :: start, b :: hay => if a = b then dropPrefix? start hay else none

theorem dropPrefix?_eq_some_iff {α : Type} [DecidableEq α] {start hay rest : List α} :
    dropPrefix? start hay = some rest ↔ hay = start ++ rest := by
  induction start generalizing hay with
  | nil => simp [dropPrefix?]
  | cons a s ih =>
    cases hay with
    | nil => simp [dropPrefix?]
    | cons b t =>
      unfold dropPrefix?
      split
      · next h => simp [ih, h]
      · next h => simp [Ne.symm h]

end OData.Text
