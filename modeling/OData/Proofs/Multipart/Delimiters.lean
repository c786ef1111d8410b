import OData.Proofs.Multipart.Breaking
import OData.Proofs.Multipart.Document

/-!
# Parts and delimiters

Reading comes to an end on every body, well-formed or not. A part stands behind a delimiter of the
batch, an entry of a changeset behind a delimiter of that changeset, and no delimiter serves twice.
So a reader can give out **at most one part for each line that is a delimiter**, and one more if it
stands behind a delimiter whose part is still to come (`Reader.partsAhead`); the same holds of the
entries of a changeset (`Reader.entriesAhead`). `Further r n r'` says that of `r` and of the reader
`r'` that is left when `n` parts have been given out, and there is one lemma for each operation.

At the end of the body there may be one more entry that has no lines at all. It takes up nothing, but
with it the changeset is over.
-/

set_option autoImplicit false

namespace OData.Multipart

open Reading

/-! ## Delimiters that are left -/

/-- How many of the lines are the delimiter. -/
def delimitersIn (boundary : List Char) (ls : List Line) : Nat :=
  (ls.map Line.text).count (delimiterOf boundary)

namespace Reader

/-- How many parts there may still be. A reader that is between two parts has passed the delimiter
of the next one. -/
def partsAhead (r : Reader) : Nat :=
  delimitersIn r.boundary r.lines +
    if r.started && !r.finished && r.changeset.isNone then 1 else 0

/-- How many entries there may still be in a changeset. A reader that is in it has passed the
delimiter of the next one. -/
def entriesAhead (r : Reader) (inner : List Char) : Nat :=
  delimitersIn inner r.lines + if r.changeset = some inner then 1 else 0

/-- The reader is in no changeset but this one, which has at most so many entries left. -/
structure EntriesLeft (r : Reader) (inner : List Char) (n : Nat) : Prop where
  changeset : r.changeset = some inner ∨ r.changeset = none
  ahead : r.entriesAhead inner ≤ n

end Reader

section

variable {boundary : List Char} {ls rest : List Line} {top : List (List Char)}

theorem delimitersIn_le (boundary : List Char) (h : rest <:+ ls) :
    delimitersIn boundary rest ≤ delimitersIn boundary ls :=
  (h.map Line.text).sublist.count_le _

/-- A block that ends at a delimiter takes it up. -/
theorem delimitersIn_lt (hu : untilDelimiter boundary ls = (top, .delimiter, rest)) :
    delimitersIn boundary rest < delimitersIn boundary ls := by
  induction ls generalizing top with
  | nil => cases hu
  | cons l ls ih =>
    unfold untilDelimiter at hu
    split at hu
    · next hd =>
      cases hu
      simp [delimitersIn, hd]
    split at hu
    · cases hu
    · obtain ⟨-, htail⟩ := Prod.mk.inj hu
      have hle := delimitersIn_le boundary (List.suffix_cons l ls)
      exact Nat.lt_of_lt_of_le (ih (Prod.ext rfl htail)) hle

end

/-! ## What each operation takes up -/

/-- One reader has become the other by giving out so many parts. -/
structure Further (r : Reader) (n : Nat) (r' : Reader) : Prop where
  boundary : r'.boundary = r.boundary
  broken : r'.broken = r.broken
  lines : r'.lines <:+ r.lines
  parts : r'.partsAhead + n ≤ r.partsAhead

namespace Further

variable {r r' r'' : Reader} {n m : Nat}

theorem refl (r : Reader) : Further r 0 r := ⟨rfl, rfl, List.suffix_rfl, Nat.le_refl _⟩

theorem trans (h : Further r n r') (h' : Further r' m r'') : Further r (n + m) r'' where
  boundary := h'.boundary.trans h.boundary
  broken := h'.broken.trans h.broken
  lines := h'.lines.trans h.lines
  parts := by
    have hle := h.parts
    have hle' := h'.parts
    omega

theorem unbroken (h : Further r n r') (hb : r.broken = false) : r'.broken = false :=
  h.broken.trans hb

end Further

namespace Reading

variable {r r' : Reader}

/-- Behind a block of the batch itself there is at most one part for each delimiter that there was
before it: the delimiter at its end, if there is one, is no longer counted as a line. -/
theorem partsAhead_afterOuter {top : List (List Char)} {stop : Stop} {rest : List Line}
    (hu : untilDelimiter r.boundary r.lines = (top, stop, rest)) :
    (afterOuter r stop rest).partsAhead ≤ delimitersIn r.boundary r.lines := by
  have hle := delimitersIn_le r.boundary (suffix_untilDelimiter hu)
  unfold Reader.partsAhead afterOuter
  cases stop with
  | delimiter =>
    have hlt := delimitersIn_lt hu
    dsimp only
    split <;> omega
  | terminator | exhausted => simpa [Stop.isFinal] using hle

theorem further_skipPreamble (hb : r.broken = false) {u : Unit}
    (h : on r skipPreamble = (.ok u, r')) : Further r 0 r' := by
  cases hs : r.started with
  | true =>
    rw [on_skipPreamble_started hs] at h
    cases h
    exact .refl r
  | false =>
    rcases hu : untilDelimiter r.boundary r.lines with ⟨skipped, stop, rest⟩
    rw [on_skipPreamble hb hs hu] at h
    cases h
    refine ⟨rfl, rfl, suffix_untilDelimiter hu, ?_⟩
    have hle := partsAhead_afterOuter (r := { r with started := true }) hu
    exact Nat.le_trans hle (Nat.le_add_right _ _)

theorem eq_delimiter {stop : Stop} (h : stop.isFinal = false) : stop = .delimiter := by
  cases stop with
  | delimiter => rfl
  | terminator | exhausted => cases h

/-- An entry takes up a delimiter of its changeset, or the changeset is over with it. -/
theorem further_nextInChangeset (hb : r.broken = false) {c : List Char}
    (hc : r.changeset = some c) {e : Option Entry} (h : on r nextInChangeset = (.ok e, r')) :
    Further r 0 r' ∧ r'.entriesAhead c < r.entriesAhead c ∧
      (r'.changeset = some c ∨ r'.changeset = none) := by
  rcases hh : untilEmpty r.lines with ⟨top, found, rest⟩
  rcases hu : untilDelimiter c rest with ⟨payload, stop, rest'⟩
  have hsuffix : rest' <:+ r.lines := (suffix_untilDelimiter hu).trans (suffix_untilEmpty hh)
  have hentries : r.entriesAhead c = delimitersIn c r.lines + 1 := by
    rw [Reader.entriesAhead, if_pos hc]
  cases hf : stop.isFinal with
  | false =>
    obtain rfl := eq_delimiter hf
    rw [on_nextInChangeset_delimiter hb hc hh hu] at h
    cases h
    have hlt := delimitersIn_lt hu
    have hle := delimitersIn_le c (suffix_untilEmpty hh)
    refine ⟨⟨rfl, rfl, hsuffix, ?_⟩, ?_, .inl hc⟩
    · have hle' := delimitersIn_le r.boundary hsuffix
      simpa [Reader.partsAhead, hc] using hle'
    · rw [hentries, Reader.entriesAhead, if_pos hc]
      dsimp only
      omega
  | true =>
    rcases ho : untilDelimiter r.boundary rest' with ⟨skipped, stop', rest''⟩
    rw [on_nextInChangeset_final hb hc hh hu hf ho] at h
    cases h
    have hsuffix' : rest'' <:+ r.lines := (suffix_untilDelimiter ho).trans hsuffix
    refine ⟨⟨rfl, rfl, hsuffix', ?_⟩, ?_, .inr rfl⟩
    · have hle := partsAhead_afterOuter (r := { r with lines := rest', changeset := none }) ho
      have hle' := delimitersIn_le r.boundary hsuffix
      have hparts : r.partsAhead = delimitersIn r.boundary r.lines := by
        simp [Reader.partsAhead, hc]
      rw [hparts]
      exact Nat.le_trans hle hle'
    · have hle := delimitersIn_le c hsuffix'
      rw [hentries]
      exact Nat.lt_succ_of_le hle

theorem further_entry (hb : r.broken = false) {e : Option Entry}
    (h : on r nextInChangeset = (.ok e, r')) : Further r 0 r' := by
  cases hc : r.changeset with
  | none =>
    rw [on_nextInChangeset_none hc] at h
    cases h
    exact .refl r
  | some c => exact (further_nextInChangeset hb hc h).1

theorem further_next {p p' : Part} (hb : r.broken = false) {e : Option Entry}
    (h : on r p.next = (.ok (e, p'), r')) : Further r 0 r' := by
  cases p with
  | single e' =>
    cases h
    exact .refl r
  | changeset => exact further_entry hb (on_next_changeset_eq_ok h).2

/-- A part that is read under a head, and the reader behind it. The parts that may still follow are
behind delimiters that stood under the head, and so are the entries, if the part is a changeset. -/
structure Under (r : Reader) (top : List (List Char)) (p : Part) (r' : Reader) : Prop where
  boundary : r'.boundary = r.boundary
  broken : r'.broken = r.broken
  lines : r'.lines <:+ r.lines
  parts : r'.partsAhead ≤ delimitersIn r.boundary r.lines
  entries : p = .changeset → ∃ inner, boundaryIn? top = some inner ∧
    r'.EntriesLeft inner.toList (delimitersIn inner.toList r.lines)

theorem under_of_partUnder {top : List (List Char)} {p : Part}
    (h : on r (partUnder top) = (.ok p, r')) (hb : r.broken = false) (hc : r.changeset = none) :
    Under r top p r' := by
  cases hn : boundaryIn? top with
  | none =>
    rcases hu : untilDelimiter r.boundary r.lines with ⟨payload, stop, rest⟩
    rw [on_partUnder_single hb hn hu] at h
    cases h
    exact ⟨rfl, rfl, suffix_untilDelimiter hu, partsAhead_afterOuter hu, nofun⟩
  | some inner =>
    rcases hu : untilDelimiter inner.toList r.lines with ⟨skipped, stop, rest⟩
    have hsuffix := suffix_untilDelimiter hu
    cases hf : stop.isFinal with
    | false =>
      obtain rfl := eq_delimiter hf
      rw [on_partUnder_changeset hb hn hu] at h
      cases h
      have hle := delimitersIn_le r.boundary hsuffix
      have hlt := delimitersIn_lt hu
      refine ⟨rfl, rfl, hsuffix, ?_, fun _ => ⟨inner, hn, .inl rfl, ?_⟩⟩
      · simpa [Reader.partsAhead] using hle
      · simpa [Reader.entriesAhead] using Nat.succ_le_of_lt hlt
    | true =>
      -- A changeset without entries: the block behind it is one of the batch.
      rcases ho : untilDelimiter r.boundary rest with ⟨skipped', stop', rest'⟩
      rw [on_partUnder_empty hb hn hu hf ho] at h
      cases h
      have hsuffix' := (suffix_untilDelimiter ho).trans hsuffix
      have hparts := partsAhead_afterOuter (r := { r with lines := rest }) ho
      have hle := delimitersIn_le r.boundary hsuffix
      have hle' := delimitersIn_le inner.toList hsuffix'
      refine ⟨rfl, rfl, hsuffix', Nat.le_trans hparts hle, fun _ => ⟨inner, hn, .inr hc, ?_⟩⟩
      simpa [Reader.entriesAhead, afterOuter, hc] using hle'

end Reading

/-! ## Entries of a changeset -/

theorem Takes.changeset_eq_none {r r' : Reader} {es : List Entry}
    (h : Takes r .changeset es r') : r'.changeset = none := by
  generalize hp : Part.changeset = p at h
  induction h with
  | nil h =>
    subst hp
    obtain ⟨hc, rfl⟩ := of_nextInChangeset_none (on_next_changeset_eq_ok h).2
    exact hc
  | cons h _ ih =>
    subst hp
    obtain ⟨rfl, -⟩ := on_next_changeset_eq_ok h
    exact ih rfl

theorem Takes.eq_of_changeset_none {r r' : Reader} {es : List Entry} (hc : r.changeset = none)
    (h : Takes r .changeset es r') : r' = r := by
  cases h with
  | nil h =>
    obtain ⟨-, rfl⟩ := of_nextInChangeset_none (on_next_changeset_eq_ok h).2
    rfl
  | cons h _ =>
    obtain ⟨-, hn⟩ := on_next_changeset_eq_ok h
    rw [on_nextInChangeset_none hc] at hn
    cases hn

theorem Takes.further {r r' : Reader} {p : Part} {es : List Entry} (h : Takes r p es r')
    (hb : r.broken = false) : Further r 0 r' := by
  induction h with
  | nil h => exact further_next hb h
  | cons h _ ih =>
    have hfurther := further_next hb h
    exact hfurther.trans (ih (hfurther.unbroken hb))

theorem Takes.started {r r' : Reader} {p : Part} {es : List Entry} (h : Takes r p es r')
    (hs : r.started = true) : r'.started = true := by
  induction h with
  | nil h => exact (on_nextPart_of_next hs h).1
  | cons h _ ih => exact ih (on_nextPart_of_next hs h).1

/-- **A changeset has at most so many entries** as its reader has left of it. Induction on the
entries that are taken: each of them takes up a delimiter, and the last one the changeset. -/
theorem Reader.EntriesLeft.length_le {r r' : Reader} {inner : List Char} {n : Nat}
    {es : List Entry} (hleft : r.EntriesLeft inner n) (hb : r.broken = false)
    (h : Takes r .changeset es r') : es.length ≤ n := by
  generalize hp : Part.changeset = p at h
  induction h generalizing n with
  | nil _ => exact Nat.zero_le n
  | cons h _ ih =>
    subst hp
    obtain ⟨rfl, he⟩ := on_next_changeset_eq_ok h
    rcases hleft.changeset with hc | hc
    · obtain ⟨hfurther, hlt, hc'⟩ := further_nextInChangeset hb hc he
      have hle := hleft.ahead
      obtain ⟨n, rfl⟩ : ∃ m, n = m + 1 := ⟨n - 1, by omega⟩
      exact Nat.succ_le_succ (ih ⟨hc', by omega⟩ (hfurther.unbroken hb) rfl)
    · rw [on_nextInChangeset_none hc] at he
      cases he

/-! ## The next part -/

/-- What stands before the next part is behind the reader: the preamble, and the entries that were
left of a changeset, one after the other until there are no more. -/
def PassesOver (r r' : Reader) : Prop :=
  ∃ r₀ es, on r skipPreamble = (.ok ⟨⟩, r₀) ∧ Takes r₀ .changeset es r'

namespace PassesOver

variable {r r' : Reader}

theorem further (h : PassesOver r r') (hb : r.broken = false) : Further r 0 r' := by
  obtain ⟨r₀, es, hpreamble, htakes⟩ := h
  have hfurther := further_skipPreamble hb hpreamble
  exact hfurther.trans (htakes.further (hfurther.unbroken hb))

theorem changeset_eq_none (h : PassesOver r r') : r'.changeset = none := by
  obtain ⟨_, _, -, htakes⟩ := h
  exact htakes.changeset_eq_none

theorem started (h : PassesOver r r') : r'.started = true := by
  obtain ⟨r₀, es, hpreamble, htakes⟩ := h
  have hs := started_skipPreamble r
  rw [hpreamble] at hs
  exact htakes.started hs

/-- The part that comes next is the one that is read from there. -/
theorem on_nextPart (h : PassesOver r r') : on r nextPart = on r' nextPart := by
  obtain ⟨r₀, es, hpreamble, htakes⟩ := h
  have hs := started_skipPreamble r
  rw [hpreamble] at hs
  rw [← htakes.on_nextPart hs]
  unfold nextPart
  rw [on_bind_ok hpreamble, on_bind_ok (on_skipPreamble_started hs)]

end PassesOver

/-- With enough of it to begin with, passing over a changeset ends because it has no more entries. -/
theorem takes_of_skipChangeset {n : Nat} {r r' : Reader} {u : Unit} (hn : stock r < n)
    (h : on r (skipChangeset n) = (.ok u, r')) : ∃ es, Takes r .changeset es r' := by
  induction n generalizing r with
  | zero => exact absurd hn (Nat.not_lt_zero _)
  | succ n ih =>
    obtain ⟨e, r₁, he, h⟩ := on_bind_eq_ok h
    cases e with
    | none =>
      cases h
      exact ⟨[], .nil (on_next_changeset he)⟩
    | some e =>
      have hlt := stock_nextInChangeset he
      obtain ⟨es, htakes⟩ := ih (by omega) h
      exact ⟨e :: es, .cons (on_next_changeset he) htakes⟩

/-- What comes of asking for a part, without any bound: what stands before it is passed over, and
then the batch is over, or there is a head with something under it. -/
theorem of_nextPart {r r' : Reader} {p : Option Part} (h : on r nextPart = (.ok p, r')) :
    ∃ r₁, PassesOver r r₁ ∧
      ((p = none ∧ ∃ rest, rest <:+ r₁.lines ∧
          r' = { r₁ with lines := rest, finished := true }) ∨
        r₁.finished = false ∧ ∃ q top found rest, p = some q ∧
          untilEmpty r₁.lines = (top, found, rest) ∧
          on { r₁ with lines := rest, finished := !found } (partUnder top) = (.ok q, r')) := by
  obtain ⟨r₀, r₁, h₀, h₁, hcases⟩ := nextPart_cases h
  obtain ⟨es, htakes⟩ := takes_of_skipChangeset (Nat.lt_succ_of_le (stock_le r₀)) h₁
  refine ⟨r₁, ⟨r₀, es, h₀, htakes⟩, ?_⟩
  rcases hcases with hnone | ⟨hf, q, top, found, rest, hp, hu, -, hq⟩
  · exact .inl hnone
  · exact .inr ⟨hf, q, top, found, rest, hp, hu, hq⟩

/-- **A part takes up a delimiter of the batch.** -/
theorem further_nextPart {r r' : Reader} (hb : r.broken = false) {p : Option Part}
    (h : on r nextPart = (.ok p, r')) : Further r p.toList.length r' := by
  obtain ⟨r₁, hpasses, hcases⟩ := of_nextPart h
  have hfurther := hpasses.further hb
  suffices hpart : Further r₁ p.toList.length r' by simpa using hfurther.trans hpart
  rcases hcases with ⟨rfl, rest, hrest, rfl⟩ | ⟨hf, q, top, found, rest, rfl, hu, hq⟩
  · refine ⟨rfl, rfl, hrest, ?_⟩
    have hle := delimitersIn_le r₁.boundary hrest
    have hahead : ({ r₁ with lines := rest, finished := true } : Reader).partsAhead =
        delimitersIn r₁.boundary rest := by
      simp [Reader.partsAhead]
    rw [hahead]
    exact Nat.le_trans hle (Nat.le_add_right _ _)
  · have hunder := under_of_partUnder hq (hfurther.unbroken hb) hpasses.changeset_eq_none
    have hrest := suffix_untilEmpty hu
    have hle := delimitersIn_le r₁.boundary hrest
    -- The delimiter of this part has been passed, so it is ahead but no longer among the lines.
    have hahead : r₁.partsAhead = delimitersIn r₁.boundary r₁.lines + 1 := by
      simp [Reader.partsAhead, hpasses.started, hf, hpasses.changeset_eq_none]
    refine ⟨hunder.boundary, hunder.broken, hunder.lines.trans hrest, ?_⟩
    rw [hahead]
    exact Nat.succ_le_succ (Nat.le_trans hunder.parts hle)

/-- **Passing over ends by itself**, whatever the body holds. If a changeset comes next, its entries
stand behind delimiters of the boundary that its head names. -/
theorem exists_passesOver {r : Reader} (hb : r.broken = false) :
    ∃ r₁, PassesOver r r₁ ∧ ∀ r', on r nextPart = (.ok (some .changeset), r') →
      ∃ inner, boundaryIn? (untilEmpty r₁.lines).1 = some inner ∧
        r'.EntriesLeft inner.toList (delimitersIn inner.toList r.lines) := by
  obtain ⟨p, r₂, hp, -⟩ := exists_of_unbroken orderly_nextPart hb
  obtain ⟨r₁, hpasses, hcases⟩ := of_nextPart hp
  refine ⟨r₁, hpasses, ?_⟩
  intro r' h
  rw [hp] at h
  cases h
  rcases hcases with ⟨hnone, -⟩ | ⟨-, q, top, found, rest, hsome, hu, hq⟩
  · cases hnone
  · cases hsome
    have hfurther := hpasses.further hb
    have hunder := under_of_partUnder hq (hfurther.unbroken hb) hpasses.changeset_eq_none
    obtain ⟨inner, hinner, hleft⟩ := hunder.entries rfl
    have hle := delimitersIn_le inner.toList ((suffix_untilEmpty hu).trans hfurther.lines)
    refine ⟨inner, ?_, hleft.changeset, Nat.le_trans hleft.ahead hle⟩
    rwa [hu]

/-- **A walk finds at most one part for each delimiter.** -/
theorem Reads.further {r r' : Reader} {ps : List PartRead} (h : Reads r ps r')
    (hb : r.broken = false) : Further r ps.length r' := by
  induction h with
  | nil h => exact further_nextPart hb h
  | cons h htakes _ ih =>
    have hpart := further_nextPart hb h
    have hentries := htakes.further (hpart.unbroken hb)
    have hrest := ih ((hpart.trans hentries).unbroken hb)
    have hall := (hpart.trans hentries).trans hrest
    rwa [Option.toList_some, List.length_singleton, Nat.add_zero, Nat.add_comm] at hall

/-! ## Calls -/

namespace Cursor

/-- The cursor after calls that are made one after the other. -/
def after (c : Cursor) : List Call → Cursor
  | [] => c
  | k :: ks => (c.call k).2.after ks

/-- The replies to the calls of one kind among others. -/
def repliesTo (c : Cursor) (k : Call) (ks : List Call) : List Reply :=
  ((ks.zip (c.replies ks)).filter (·.1 == k)).map Prod.snd

variable {c : Cursor}

theorem repliesTo_cons_self (k : Call) (ks : List Call) :
    c.repliesTo k (k :: ks) = (c.call k).1 :: (c.call k).2.repliesTo k ks := by
  simp [repliesTo, replies]

theorem repliesTo_cons_of_ne {k k' : Call} (hk : k' ≠ k) (ks : List Call) :
    c.repliesTo k (k' :: ks) = (c.call k').2.repliesTo k ks := by
  simp [repliesTo, replies, hk]

theorem further_call (hb : c.reader.broken = false) (k : Call) :
    ∃ n, Further c.reader n (c.call k).2.reader := by
  cases k with
  | part =>
    obtain ⟨p, r', hp, -⟩ := exists_of_unbroken orderly_nextPart hb
    have hfurther := further_nextPart hb hp
    cases p with
    | none => exact ⟨_, by rwa [call_part_none hp]⟩
    | some p => exact ⟨_, by rwa [call_part_some hp]⟩
  | entry =>
    cases hc : c.inHand with
    | none => exact ⟨0, by rw [call_entry_of_none hc]; exact .refl _⟩
    | some p =>
      obtain ⟨⟨e, p'⟩, r', he, -⟩ := exists_of_unbroken (orderly_next p) hb
      have hfurther := further_next hb he
      cases e with
      | none => exact ⟨_, by rwa [call_entry_none hc he]⟩
      | some e => exact ⟨_, by rwa [call_entry_some hc he]⟩

theorem further_after (hb : c.reader.broken = false) (ks : List Call) :
    ∃ n, Further c.reader n (c.after ks).reader := by
  induction ks generalizing c with
  | nil => exact ⟨0, .refl _⟩
  | cons k ks ih =>
    obtain ⟨n, hcall⟩ := further_call hb k
    obtain ⟨m, hafter⟩ := ih (hcall.unbroken hb)
    exact ⟨n + m, hcall.trans hafter⟩

/-- Where a call for the next part gives out a changeset, the caller has it in hand. -/
theorem of_call_changeset {d : Cursor} (h : c.call .part = (.part true, d)) :
    on c.reader nextPart = (.ok (some .changeset), d.reader) ∧ d.inHand = some .changeset := by
  rcases ho : on c.reader nextPart with ⟨b | _ | p, r'⟩
  · rw [call_part_error ho] at h
    cases h
  · rw [call_part_none ho] at h
    cases h
  · rw [call_part_some ho] at h
    cases p with
    | single e => cases h
    | changeset =>
      cases h
      exact ⟨rfl, rfl⟩

end Cursor

/-- The replies to so many calls where there is so much to give out, and then no more. -/
def handedOut (xs : List Reply) (n : Nat) : List Reply :=
  xs.take n ++ List.replicate (n - xs.length) .noMore

theorem handedOut_nil_succ (n : Nat) : handedOut [] (n + 1) = .noMore :: handedOut [] n := by
  simp [handedOut, List.replicate_succ]

theorem handedOut_cons_succ (x : Reply) (xs : List Reply) (n : Nat) :
    handedOut (x :: xs) (n + 1) = x :: handedOut xs n := by
  simp [handedOut]

namespace Ahead

variable {c : Cursor} {es : List Entry} {ps : List PartRead}

theorem repliesTo_part (h : Ahead c es ps) (ks : List Call) :
    c.repliesTo .part ks = handedOut (ps.map fun p => .part p.changeset) (ks.count .part) := by
  induction ks generalizing c es ps with
  | nil => simp [Cursor.repliesTo, handedOut]
  | cons k ks ih =>
    cases k with
    | part =>
      rw [Cursor.repliesTo_cons_self, List.count_cons_self]
      cases ps with
      | nil =>
        obtain ⟨c', hcall, h'⟩ := h.call_part_nil
        rw [hcall, ih h', List.map_nil, handedOut_nil_succ]
      | cons p ps =>
        obtain ⟨c', hcall, h'⟩ := h.call_part
        rw [hcall, ih h', List.map_cons, handedOut_cons_succ]
    | entry =>
      rw [Cursor.repliesTo_cons_of_ne (by decide), List.count_cons_of_ne (by decide)]
      cases es with
      | nil =>
        obtain ⟨c', hcall, h'⟩ := h.call_entry_nil
        rw [hcall, ih h']
      | cons e es =>
        obtain ⟨c', hcall, h'⟩ := h.call_entry
        rw [hcall, ih h']

theorem replies_entries (h : Ahead c es ps) (n : Nat) :
    c.replies (List.replicate n .entry) = handedOut (es.map .entry) n := by
  induction n generalizing c es with
  | zero => simp [Cursor.replies, handedOut]
  | succ n ih =>
    rw [List.replicate_succ, Cursor.replies]
    cases es with
    | nil =>
      obtain ⟨c', hcall, h'⟩ := h.call_entry_nil
      rw [hcall, ih h', List.map_nil, handedOut_nil_succ]
    | cons e es =>
      obtain ⟨c', hcall, h'⟩ := h.call_entry
      rw [hcall, ih h', List.map_cons, handedOut_cons_succ]

end Ahead

/-- A changeset that has just been given out hands out its entries, and then no more. -/
theorem Cursor.replies_entries {c d : Cursor} (hb : d.reader.broken = false)
    (hd : c.call .part = (.part true, d)) {es : List Entry} {r' : Reader}
    (htakes : Takes d.reader .changeset es r') (n : Nat) :
    d.replies (List.replicate n .entry) = handedOut (es.map .entry) n := by
  obtain ⟨hnext, hin⟩ := of_call_changeset hd
  obtain ⟨ps, r₂, hrest⟩ := exists_reads hb
  have hs := started_nextPart c.reader
  rw [hnext] at hs
  obtain ⟨reader, inHand⟩ := d
  obtain rfl : inHand = some .changeset := hin
  exact (Ahead.within hs htakes hrest).replies_entries n

/-- **Reading comes to an end on every body.** Whatever calls are made, those for the next part give
out the parts of a walk over the whole body, at most one for each line that is the delimiter, and
then no more for good. Whenever a part is asked for, passing over what stands before it ends by
itself; and if a changeset is given out, then asking it for entries gives at most one for each line
of the body that is the delimiter of the boundary that its head names, and then no more. -/
theorem handedOut_of_calls (boundary : String) (bytes : List UInt8) :
    ∃ ps r', Reads (.start boundary bytes false) ps r' ∧
      ps.length ≤ delimitersIn boundary.toList (linesOf bytes false) ∧
      ∀ ks, let c := Cursor.start boundary bytes false
        c.repliesTo .part ks = handedOut (ps.map fun p => .part p.changeset) (ks.count .part) ∧
        ∃ r₁, PassesOver (c.after ks).reader r₁ ∧
          on (c.after ks).reader nextPart = on r₁ nextPart ∧
          ∀ d, (c.after ks).call .part = (.part true, d) →
            ∃ inner, ∃ es : List Entry, boundaryIn? (untilEmpty r₁.lines).1 = some inner ∧
              es.length ≤ delimitersIn inner.toList (linesOf bytes false) ∧
              ∀ n, d.replies (List.replicate n .entry) = handedOut (es.map .entry) n := by
  obtain ⟨ps, r', hreads⟩ := exists_reads (r := .start boundary bytes false) rfl
  have hahead : Ahead (.start boundary bytes false) [] ps := .between hreads
  refine ⟨ps, r', hreads, ?_, ?_⟩
  · -- Nothing has been passed yet, so the parts ahead are the delimiters of the whole body.
    have hparts := (hreads.further rfl).parts
    exact Nat.le_trans (Nat.le_add_left _ _) hparts
  · -- The reader has no line that the body has not, so it has no delimiter more.
    intro ks c
    obtain ⟨n, hafter⟩ := Cursor.further_after (c := c) rfl ks
    have hb := hafter.unbroken rfl
    obtain ⟨r₁, hpasses, hchangeset⟩ := exists_passesOver hb
    refine ⟨hahead.repliesTo_part ks, r₁, hpasses, hpasses.on_nextPart, ?_⟩
    intro d hd
    obtain ⟨hnext, hin⟩ := Cursor.of_call_changeset hd
    obtain ⟨inner, hinner, hleft⟩ := hchangeset d.reader hnext
    have hbd := (further_nextPart hb hnext).unbroken hb
    obtain ⟨es, r₂, htakes, -⟩ := exists_takes_changeset hbd
    have hentries := hleft.length_le hbd htakes
    have hle := delimitersIn_le inner.toList hafter.lines
    refine ⟨inner, es, hinner, Nat.le_trans hentries hle, ?_⟩
    exact Cursor.replies_entries hbd hd htakes

/-- A body that ends behind the delimiter of a changeset. -/
def cutChangeset : List UInt8 :=
  Text.Utf8.encode "--b\nContent-Type: multipart/mixed; boundary=c\n\n--c\n".toList

/-- The delimiter of the changeset stands in its body once, so there is at most one entry. -/
theorem handedOut_cutChangeset :
    ∃ d, (Cursor.start "b" cutChangeset false).call .part = (.part true, d) ∧
      ∃ es : List Entry, es.length ≤ 1 ∧
        ∀ n, d.replies (List.replicate n .entry) = handedOut (es.map .entry) n := by
  have hpart : ∃ d, (Cursor.start "b" cutChangeset false).call .part = (.part true, d) := by
    have hnext : (on (.start "b" cutChangeset false) nextPart).1.toOption =
        some (some .changeset) := by decide +kernel
    rcases ho : on (.start "b" cutChangeset false) nextPart with ⟨b | p, r⟩
    · rw [ho] at hnext
      cases hnext
    · rw [ho] at hnext
      cases hnext
      have hcall := Cursor.call_part_some (c := .start "b" cutChangeset false) ho
      exact ⟨_, hcall⟩
  obtain ⟨d, hd⟩ := hpart
  obtain ⟨ps, r', -, -, hcalls⟩ := handedOut_of_calls "b" cutChangeset
  obtain ⟨-, r₁, ⟨r₀, es₀, hpreamble, htakes⟩, -, hchangeset⟩ := hcalls []
  obtain ⟨inner, es, hinner, hle, hreplies⟩ := hchangeset d hd
  refine ⟨d, hd, es, ?_, hreplies⟩
  -- Only the preamble has been passed over, so the head is that of the first part.
  have hr₀ : r₀ = (on (.start "b" cutChangeset false) skipPreamble).2 :=
    (congrArg Prod.snd hpreamble).symm
  have hnone : r₀.changeset = none := by
    rw [hr₀]
    decide +kernel
  have hhead : boundaryIn?
      (untilEmpty (on (.start "b" cutChangeset false) skipPreamble).2.lines).1 = some "c" := by
    decide +kernel
  have hcount : delimitersIn "c".toList (linesOf cutChangeset false) = 1 := by decide +kernel
  rw [htakes.eq_of_changeset_none hnone, hr₀, hhead] at hinner
  cases hinner
  rwa [hcount] at hle

/-- The one entry has no lines. It takes up nothing but the changeset. -/
example : partsIn ((Cursor.start "b" cutChangeset false).replies [.part, .entry, .entry, .part]) =
    [⟨true, [⟨"", ""⟩]⟩] := by
  decide +kernel

end OData.Multipart
