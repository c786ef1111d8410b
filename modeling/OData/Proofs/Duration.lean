import OData.Duration
import OData.Proofs.Text.Scanner

/-!
# Durations read back

The text of a duration leaves out the units that are zero and the zeros at the end of a fraction, so
reading it has to tell from the unit behind each number what the number counts. **The nanoseconds
that are read are those that were written** (`Duration.read?_iso`), for every duration whose whole
seconds have a positive counterpart in 64 bits.
-/

set_option autoImplicit false

namespace OData

open OData.Text

/-! ## Fractions of a second -/

/-- No digit and no point follows, so that a number before it ends here. -/
def EndsNumber (s : List Char) : Prop := ∀ c ∈ s.head?, isDigit c = false ∧ c ≠ '.'

theorem EndsNumber.nil : EndsNumber [] := fun _ hc => nomatch hc

theorem EndsNumber.cons {c : Char} (h : isDigit c = false ∧ c ≠ '.') (s : List Char) :
    EndsNumber (c :: s) := by
  rintro d ⟨⟩
  exact h

/-- The nanoseconds of a fraction of up to nine digits behind a point; zero if there is no point. -/
def Text.Scanner.fraction : Scanner Nat := fun s =>
  match s with
  | '.' :: r =>
    let ds := r.takeWhile isDigit
    if ds = [] ∨ 9 < ds.length then none
    else (readDigits 0 ds).map fun n => (n * Nat.pow 10 (9 - ds.length), r.dropWhile isDigit)
  | _ => some (0, s)

/-- What has been cut off can be put back. -/
theorem rdropWhile_append_replicate (c : Char) (s : List Char) :
    ∃ k, s.rdropWhile (· == c) ++ List.replicate k c = s := by
  have hcut : s.rtakeWhile (· == c) = List.replicate (s.rtakeWhile (· == c)).length c :=
    List.eq_replicate_of_mem fun d hd => eq_of_beq (List.mem_rtakeWhile_imp (p := (· == c)) hd)
  refine ⟨(s.rtakeWhile (· == c)).length, ?_⟩
  rw [← hcut, List.rdropWhile_append_rtakeWhile]

/-- **The zeros at the end of a fraction are not missed.** -/
theorem Text.Scanner.fraction_append {nanos : Nat} (h : nanos < nanosPerSecond) {r : List Char}
    (hr : EndsNumber r) : fraction.run (fractionText nanos ++ r) = some (nanos, r) := by
  unfold fractionText
  split
  · next hzero =>
    subst hzero
    show fraction r = _
    unfold fraction
    split
    · exact absurd rfl (hr '.' rfl).2
    · rfl
  · next hpos =>
    have hlen : (paddedDigits 9 nanos).length = 9 := length_paddedDigits (by decide) h
    have hread := readDigits_paddedDigits 9 nanos
    have hmem : ∀ c ∈ (paddedDigits 9 nanos).rdropWhile (· == '0'), isDigit c = true :=
      fun c hc => isDigit_of_mem (mem_paddedDigits ((List.rdropWhile_prefix _ _).subset hc))
    obtain ⟨k, hk⟩ := rdropWhile_append_replicate '0' (paddedDigits 9 nanos)
    rw [dropEndWhile_eq_rdropWhile]
    generalize (paddedDigits 9 nanos).rdropWhile (· == '0') = ds at hmem hk ⊢
    rw [← hk, List.length_append, List.length_replicate] at hlen
    rw [← hk, readDigits_append] at hread
    obtain ⟨n, hn, hscaled⟩ := Option.bind_eq_some_iff.mp hread
    rw [readDigits_zeros, show k = 9 - ds.length by omega] at hscaled
    have hne : ds ≠ [] := by
      rintro rfl
      cases hn
      rw [Nat.zero_mul] at hscaled
      exact hpos (Option.some.inj hscaled).symm
    have hkept : ¬ (ds = [] ∨ 9 < ds.length) := by
      rintro (h | h)
      · exact hne h
      · omega
    have hend : ∀ c ∈ r.head?, isDigit c = false := fun c hc => (hr c hc).1
    show (if (ds ++ r).takeWhile isDigit = [] ∨ 9 < ((ds ++ r).takeWhile isDigit).length then none
      else (readDigits 0 ((ds ++ r).takeWhile isDigit)).map fun n =>
        (n * Nat.pow 10 (9 - ((ds ++ r).takeWhile isDigit).length), (ds ++ r).dropWhile isDigit)) =
      some (nanos, r)
    rw [takeWhile_isDigit hmem hend, dropWhile_isDigit hmem hend, if_neg hkept, hn]
    exact congrArg (Option.map (·, r)) hscaled

namespace Duration

/-! ## Reading -/

/-- Seconds with a fraction, in nanoseconds. -/
def scanSeconds : Scanner Nat := do
  let n ← Scanner.numeral
  let nanos ← Scanner.fraction
  Scanner.char 'S'
  return n * nanosPerSecond + nanos

/-- Hours, minutes and seconds, of which each may be missing, in nanoseconds. -/
def scanMagnitude : Scanner Nat := do
  Scanner.char 'P'
  Scanner.char 'T'
  let hours ← Scanner.component 'H' <|> pure 0
  let minutes ← Scanner.component 'M' <|> pure 0
  let seconds ← scanSeconds <|> pure 0
  return (hours * 3600 + minutes * 60) * nanosPerSecond + seconds

/-- The nanoseconds of a duration as it is written. -/
def read? (s : List Char) : Option Int :=
  match s with
  | '-' :: r => (scanMagnitude.whole r).map fun n : Nat => -(n : Int)
  | _ => (scanMagnitude.whole s).map fun n : Nat => (n : Int)

/-! ## What is read of what is written -/

section

variable {unit : Char} {n : Nat} {r : List Char}

/-- Whether a number of the unit is written or left out, it is read, if none follows that could be
taken for it. -/
theorem run_component (hunit : isDigit unit = false)
    (hr : (Scanner.component unit).run r = none) :
    (Scanner.component unit <|> pure 0).run ((if n = 0 then [] else digits n ++ [unit]) ++ r) =
      some (n, r) := by
  split
  · next hzero =>
    subst hzero
    exact Scanner.run_orElse_none hr
  · rw [List.append_assoc]
    exact Scanner.run_orElse_of (Scanner.component_append n hunit r)

def secondsText (seconds rest : Nat) : List Char :=
  if seconds = 0 ∧ rest = 0 then [] else digits seconds ++ fractionText rest ++ ['S']

theorem run_scanSeconds (seconds : Nat) {rest : Nat} (h : rest < nanosPerSecond) :
    (scanSeconds <|> pure 0).run (secondsText seconds rest) =
      some (seconds * nanosPerSecond + rest, []) := by
  unfold secondsText
  split
  · next hzero =>
    obtain ⟨rfl, rfl⟩ := hzero
    rfl
  · have hfraction := Scanner.fraction_append h (EndsNumber.cons (c := 'S') (by decide) [])
    have hend : ∀ c ∈ (fractionText rest ++ ['S']).head?, isDigit c = false := by
      unfold fractionText
      split
      · rintro c ⟨⟩
        decide
      · rintro c ⟨⟩
        decide
    refine Scanner.run_orElse_of ?_
    unfold scanSeconds
    rw [List.append_assoc, Scanner.run_bind_of (Scanner.numeral_append seconds hend),
      Scanner.run_bind_of hfraction, Scanner.run_bind_of (Scanner.char_cons 'S' [])]
    rfl

/-- No seconds are taken for another unit. -/
theorem component_secondsText (hunit : unit ≠ 'S' ∧ unit ≠ '.') (seconds rest : Nat) :
    (Scanner.component unit).run (secondsText seconds rest) = none := by
  unfold secondsText fractionText
  split
  · exact Scanner.component_nil unit
  rw [List.append_assoc]
  split
  · exact Scanner.component_eq_none seconds (by decide) hunit.1.symm []
  · exact Scanner.component_eq_none seconds (by decide) hunit.2.symm _

theorem component_minutes (minutes : Nat) {r : List Char}
    (hr : (Scanner.component 'H').run r = none) :
    (Scanner.component 'H').run ((if minutes = 0 then [] else digits minutes ++ ['M']) ++ r) =
      none := by
  split
  · exact hr
  · rw [List.append_assoc]
    exact Scanner.component_eq_none minutes (by decide) (by decide) r

end

theorem isoMagnitude_eq (nanos : Nat) :
    isoMagnitude nanos = 'P' :: 'T' ::
      ((if nanos / nanosPerSecond / 3600 = 0 then []
          else digits (nanos / nanosPerSecond / 3600) ++ ['H']) ++
        ((if nanos / nanosPerSecond % 3600 / 60 = 0 then []
            else digits (nanos / nanosPerSecond % 3600 / 60) ++ ['M']) ++
          secondsText (nanos / nanosPerSecond % 60) (nanos % nanosPerSecond))) := by
  rw [← List.append_assoc]
  rfl

theorem whole_isoMagnitude (nanos : Nat) :
    scanMagnitude.whole (isoMagnitude nanos) = some nanos := by
  have hseconds := run_scanSeconds (nanos / nanosPerSecond % 60)
    (Nat.mod_lt nanos (by decide : 0 < nanosPerSecond))
  have hnoMinutes := component_secondsText (by decide : 'M' ≠ 'S' ∧ 'M' ≠ '.')
    (nanos / nanosPerSecond % 60) (nanos % nanosPerSecond)
  have hnoHours := component_minutes (nanos / nanosPerSecond % 3600 / 60)
    (component_secondsText (by decide : 'H' ≠ 'S' ∧ 'H' ≠ '.') (nanos / nanosPerSecond % 60)
      (nanos % nanosPerSecond))
  have hsum : (nanos / nanosPerSecond / 3600 * 3600 + nanos / nanosPerSecond % 3600 / 60 * 60) *
      nanosPerSecond + (nanos / nanosPerSecond % 60 * nanosPerSecond + nanos % nanosPerSecond) =
      nanos := by
    simp only [nanosPerSecond]
    omega
  refine Scanner.whole_of_run ?_
  unfold scanMagnitude
  rw [isoMagnitude_eq, Scanner.run_bind_of (Scanner.char_cons 'P' _),
    Scanner.run_bind_of (Scanner.char_cons 'T' _),
    Scanner.run_bind_of (run_component (by decide) hnoHours),
    Scanner.run_bind_of (run_component (by decide) hnoMinutes), Scanner.run_bind_of hseconds]
  exact congrArg (fun n => some (n, [])) hsum

/-- **A duration is read as it was written**, unless its whole seconds have no positive counterpart
in 64 bits. -/
theorem read?_iso {d : Duration} (h : d.nanos.natAbs < secondsBound * nanosPerSecond) :
    read? d.iso.toList = some d.nanos := by
  have hwhole := whole_isoMagnitude d.nanos.natAbs
  unfold iso
  split
  · next hzero =>
    rw [hzero]
    rfl
  · rw [String.toList_ofList, magnitude, if_pos h]
    split
    · next hneg =>
      show (scanMagnitude.whole (isoMagnitude d.nanos.natAbs)).map (fun n : Nat => -(n : Int)) = _
      have hvalue : -(d.nanos.natAbs : Int) = d.nanos := by omega
      rw [hwhole, Option.map_some, hvalue]
    · next hpos =>
      show (scanMagnitude.whole (isoMagnitude d.nanos.natAbs)).map (fun n : Nat => (n : Int)) = _
      have hvalue : (d.nanos.natAbs : Int) = d.nanos := by omega
      rw [hwhole, Option.map_some, hvalue]

end Duration

end OData
