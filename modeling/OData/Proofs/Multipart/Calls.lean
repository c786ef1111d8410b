import OData.Proofs.Multipart.Walk

/-!
# Reading with gaps

A caller of the reader asks for parts and for entries of the part in hand, as many of each as it
likes, and gets a `Reply` to each `Call`. It need not read a part to its end: what is left of it is
passed over when the next part is asked for, so **an entry more or less that has been read makes no
difference to the parts that follow** (`on_nextPart_of_entry`). What a caller has read of a body is
therefore what a walk over the whole of it finds, cut to the numbers of entries that were asked for
(`partsIn_of_calls`).

The invariant is `Ahead`: the entries that are left of the part in hand, and the parts that are left
behind it.
-/

set_option autoImplicit false

namespace OData.Multipart

open Reading

namespace Reading

/-! ## Passing over -/

theorem of_nextInChangeset_none {r r' : Reader} (h : on r nextInChangeset = (.ok none, r')) :
    r.changeset = none ∧ r' = r := by
  cases hc : r.changeset with
  | none =>
    rw [on_nextInChangeset_none hc] at h
    cases h
    exact ⟨rfl, rfl⟩
  | some c =>
    unfold nextInChangeset at h
    rw [on_get_bind, hc] at h
    obtain ⟨_, r₁, -, h⟩ := on_bind_eq_ok h
    obtain ⟨⟨_, stop⟩, r₂, -, h⟩ := on_bind_eq_ok h
    dsimp only at h
    split at h
    · rw [on_modify_bind] at h
      obtain ⟨_, r₃, -, h⟩ := on_bind_eq_ok h
      cases h
    · cases h

theorem stock_le (r : Reader) : stock r ≤ r.lines.length + 1 := by
  unfold stock
  split <;> omega

/-- With enough of it to begin with, it makes no difference how much there is to go on. -/
theorem on_skipChangeset_congr {n m : Nat} {r : Reader} (hn : stock r < n) (hm : stock r < m) :
    on r (skipChangeset n) = on r (skipChangeset m) := by
  induction n generalizing m r with
  | zero => exact absurd hn (Nat.not_lt_zero _)
  | succ n ih =>
    obtain ⟨m, rfl⟩ := Nat.exists_eq_add_one_of_ne_zero (Nat.ne_of_gt (Nat.zero_lt_of_lt hm))
    unfold skipChangeset
    rw [on_bind, on_bind]
    split
    · next e r' he =>
      cases e with
      | none => rfl
      | some e =>
        have hlt := stock_nextInChangeset he
        exact ih (by omega) (by omega)
    · rfl

theorem changeset_of_skipChangeset {n : Nat} {r r' : Reader} {u : Unit} (hn : stock r < n)
    (h : on r (skipChangeset n) = (.ok u, r')) : r'.changeset = none := by
  induction n generalizing r with
  | zero => exact absurd hn (Nat.not_lt_zero _)
  | succ n ih =>
    obtain ⟨e, r₁, he, h⟩ := on_bind_eq_ok h
    cases e with
    | none =>
      cases h
      obtain ⟨hc, rfl⟩ := of_nextInChangeset_none he
      exact hc
    | some e =>
      have hlt := stock_nextInChangeset he
      exact ih (by omega) h

/-- **Reading one more entry of a changeset does not change what follows it.** -/
theorem on_nextPart_of_entry {r r' : Reader} (hs : r.started = true) {e : Entry}
    (h : on r nextInChangeset = (.ok (some e), r')) : on r nextPart = on r' nextPart := by
  have hs' : r'.started = true := by
    have honward := orderly_nextInChangeset.onward r
    rw [h] at honward
    exact honward.started hs
  have hlt := stock_nextInChangeset h
  have hskip : on r (skipChangeset (r.lines.length + 2)) =
      on r' (skipChangeset (r'.lines.length + 2)) := by
    have hle := stock_le r
    have hle' := stock_le r'
    calc on r (skipChangeset (r.lines.length + 1 + 1))
        = on r' (skipChangeset (r.lines.length + 1)) := on_bind_ok h _
      _ = on r' (skipChangeset (r'.lines.length + 2)) :=
        on_skipChangeset_congr (by omega) (by omega)
  unfold nextPart
  rw [on_bind_ok (on_skipPreamble_started hs), on_bind_ok (on_skipPreamble_started hs'),
    on_get_bind, on_get_bind, on_bind, on_bind, hskip]

theorem started_skipPreamble (r : Reader) : (on r skipPreamble).2.started = true := by
  cases hs : r.started with
  | true => rw [on_skipPreamble_started hs, hs]
  | false =>
    unfold skipPreamble
    rw [on_get_bind, hs, if_pos Bool.not_false, on_modify_bind]
    exact (orderly_outerBlock.discard.onward { r with started := true }).started rfl

theorem started_nextPart (r : Reader) : (on r nextPart).2.started = true := by
  have hs := started_skipPreamble r
  have hagain : ∀ r', r'.started = true → (on r' nextPart).2.started = true := fun r' hs' =>
    (orderly_nextPart.onward r').started hs'
  unfold nextPart at hagain ⊢
  rw [on_bind]
  split
  · next u r' hr' =>
    -- From here on it is as if the part had been asked for once more.
    rw [hr'] at hs
    have hnext := hagain r' hs
    rwa [on_bind_ok (on_skipPreamble_started hs)] at hnext
  · next e r' hr' => rwa [hr'] at hs

/-- There are no more parts: the reader is in no changeset, and the batch has ended. -/
theorem of_nextPart_none {r r' : Reader} (h : on r nextPart = (.ok none, r')) :
    r'.changeset = none ∧ r'.finished = true := by
  obtain ⟨r₀, r₁, -, h₁, ⟨-, rest, -, rfl⟩ | ⟨-, q, -, -, -, hsome, -⟩⟩ := nextPart_cases h
  · have hc : r₁.changeset = none :=
      changeset_of_skipChangeset (Nat.lt_succ_of_le (stock_le r₀)) h₁
    exact ⟨hc, rfl⟩
  · cases hsome

/-- **The last part has been read for good.** -/
theorem on_nextPart_of_none {r r' : Reader} (h : on r nextPart = (.ok none, r')) :
    on r' nextPart = (.ok none, r') := by
  have hs := started_nextPart r
  rw [h] at hs
  obtain ⟨hc, hfinished⟩ := of_nextPart_none h
  exact on_nextPart_finished hs hc hfinished

/-! ## Every body is read to its end -/

theorem exists_of_unbroken {α : Type} {x : Reading α} (hx : Orderly x) {r : Reader}
    (hb : r.broken = false) : ∃ a r', on r x = (.ok a, r') ∧ r'.broken = false := by
  have honward := (hx.onward r).broken
  rcases ho : on r x with ⟨e | a, r'⟩
  · have hspent := (hx.spent r e (by rw [ho])).1
    rw [hb] at hspent
    cases hspent
  · rw [ho] at honward
    exact ⟨a, r', rfl, honward.trans hb⟩

end Reading

theorem exists_takes_changeset {r : Reader} (hb : r.broken = false) :
    ∃ es r', Takes r .changeset es r' ∧ r'.broken = false := by
  -- Induction on what the entries of the changeset can use up.
  induction hn : stock r using Nat.strongRecOn generalizing r with
  | ind n ih =>
    obtain ⟨e, r₁, he, hb₁⟩ := exists_of_unbroken orderly_nextInChangeset hb
    cases e with
    | none => exact ⟨[], r₁, .nil (on_next_changeset he), hb₁⟩
    | some e =>
      have hlt := stock_nextInChangeset he
      obtain ⟨es, r', ht, hb'⟩ := ih (stock r₁) (by omega) hb₁ rfl
      exact ⟨e :: es, r', .cons (on_next_changeset he) ht, hb'⟩

theorem exists_takes {r : Reader} (hb : r.broken = false) (p : Part) :
    ∃ es r', Takes r p es r' ∧ r'.broken = false := by
  cases p with
  | changeset => exact exists_takes_changeset hb
  | single e =>
    cases e with
    | none => exact ⟨[], r, .nil (on_next_single r none), hb⟩
    | some e => exact ⟨[e], r, takes_single r e, hb⟩

/-- **A body whose stream does not break off is read to its end**, whatever it holds. -/
theorem exists_reads {r : Reader} (hb : r.broken = false) : ∃ ps r', Reads r ps r' := by
  -- Induction on the lines that are left, of which every part takes up one.
  induction hn : r.lines.length using Nat.strongRecOn generalizing r with
  | ind n ih =>
    obtain ⟨p, r₁, hp, hb₁⟩ := exists_of_unbroken orderly_nextPart hb
    cases p with
    | none => exact ⟨[], r₁, .nil hp⟩
    | some p =>
      obtain ⟨es, r₂, ht, hb₂⟩ := exists_takes hb₁ p
      have hlt := length_nextPart hp
      have hle := ht.length.1
      obtain ⟨ps, r', hr⟩ := ih r₂.lines.length (by omega) hb₂ rfl
      exact ⟨_, r', .cons hp ht hr⟩

/-! ## Calls -/

/-- What a caller asks for: the next part, or the next entry of the part in hand. -/
inductive Call where
  | part
  | entry
  deriving DecidableEq, Repr

inductive Reply where
  | part (changeset : Bool)
  | entry (e : Entry)
  | noMore
  | failed (f : Failure)
  deriving Repr

/-- A reader, and the part that its caller has in hand. -/
structure Cursor where
  reader : Reader
  inHand : Option Part
  deriving Repr

namespace Cursor

def start (boundary : String) (bytes : List UInt8) (breaksOff : Bool) : Cursor :=
  ⟨.start boundary bytes breaksOff, none⟩

/-- A part is given back when the next one is asked for. One that fails to give an entry stays in
hand. -/
def call (c : Cursor) : Call → Reply × Cursor
  | .part =>
    match on c.reader nextPart with
    | (.ok (some p), r) => (.part p.isChangeset, ⟨r, some p⟩)
    | (.ok none, r) => (.noMore, ⟨r, none⟩)
    | (.error _, r) => (.failed Broken.failure, ⟨r, none⟩)
  | .entry =>
    match c.inHand with
    | none => (.noMore, c)
    | some p =>
      match on c.reader p.next with
      | (.ok (some e, p), r) => (.entry e, ⟨r, some p⟩)
      | (.ok (none, p), r) => (.noMore, ⟨r, some p⟩)
      | (.error _, r) => (.failed Broken.failure, ⟨r, some p⟩)

/-- The replies to calls that are made one after the other, whatever comes of them. -/
def replies (c : Cursor) : List Call → List Reply
  | [] => []
  | k :: ks => (c.call k).1 :: (c.call k).2.replies ks

variable {c : Cursor} {p p' : Part} {e : Entry} {b : Broken} {r : Reader}

theorem call_part_some (h : on c.reader nextPart = (.ok (some p), r)) :
    c.call .part = (.part p.isChangeset, ⟨r, some p⟩) := by
  unfold call
  rw [h]

theorem call_part_none (h : on c.reader nextPart = (.ok none, r)) :
    c.call .part = (.noMore, ⟨r, none⟩) := by
  unfold call
  rw [h]

theorem call_part_error (h : on c.reader nextPart = (.error b, r)) :
    c.call .part = (.failed Broken.failure, ⟨r, none⟩) := by
  unfold call
  rw [h]

theorem call_entry_of_none (hc : c.inHand = none) : c.call .entry = (.noMore, c) := by
  unfold call
  rw [hc]

theorem call_entry_some (hc : c.inHand = some p) (h : on c.reader p.next = (.ok (some e, p'), r)) :
    c.call .entry = (.entry e, ⟨r, some p'⟩) := by
  unfold call
  rw [hc]
  dsimp only
  rw [h]

theorem call_entry_none (hc : c.inHand = some p) (h : on c.reader p.next = (.ok (none, p'), r)) :
    c.call .entry = (.noMore, ⟨r, some p'⟩) := by
  unfold call
  rw [hc]
  dsimp only
  rw [h]

theorem call_entry_error (hc : c.inHand = some p) (h : on c.reader p.next = (.error b, r)) :
    c.call .entry = (.failed Broken.failure, ⟨r, some p⟩) := by
  unfold call
  rw [hc]
  dsimp only
  rw [h]

end Cursor

/-! ### What was asked for and what was read -/

/-- The entries in some replies up to the next part. -/
def entriesIn : List Reply → List Entry
  | [] => []
  | .part _ :: _ => []
  | .entry e :: xs => e :: entriesIn xs
  | .noMore :: xs | .failed _ :: xs => entriesIn xs

/-- The parts in some replies, each with the entries that came after it. -/
def partsIn : List Reply → List PartRead
  | [] => []
  | .part changeset :: xs => ⟨changeset, entriesIn xs⟩ :: partsIn xs
  | .entry _ :: xs | .noMore :: xs | .failed _ :: xs => partsIn xs

/-- How many entries are asked for up to the next part. -/
def entriesAsked : List Call → Nat
  | [] => 0
  | .part :: _ => 0
  | .entry :: ks => entriesAsked ks + 1

/-- How many entries are asked for of each part. -/
def asked : List Call → List Nat
  | [] => []
  | .part :: ks => entriesAsked ks :: asked ks
  | .entry :: ks => asked ks

/-- A part of which only so many entries are read. -/
def PartRead.cut (p : PartRead) (n : Nat) : PartRead := { p with entries := p.entries.take n }

/-! ## What is left to read -/

/-- Whether and how far the part in hand is read makes no difference to what follows it. -/
theorem on_nextPart_of_next {r r' : Reader} {p p' : Part} {e : Option Entry}
    (hs : r.started = true) (h : on r p.next = (.ok (e, p'), r')) :
    r'.started = true ∧ on r nextPart = on r' nextPart := by
  cases p with
  | single e' =>
    cases h
    exact ⟨hs, rfl⟩
  | changeset =>
    obtain ⟨-, hn⟩ := on_next_changeset_eq_ok h
    cases e with
    | none =>
      obtain ⟨-, rfl⟩ := of_nextInChangeset_none hn
      exact ⟨hs, rfl⟩
    | some e =>
      have honward := orderly_nextInChangeset.onward r
      rw [hn] at honward
      exact ⟨honward.started hs, on_nextPart_of_entry hs hn⟩

theorem Takes.on_nextPart {r r' : Reader} {p : Part} {es : List Entry} (h : Takes r p es r')
    (hs : r.started = true) : on r nextPart = on r' nextPart := by
  induction h with
  | nil h => exact (on_nextPart_of_next hs h).2
  | cons h _ ih =>
    obtain ⟨hs', hn⟩ := on_nextPart_of_next hs h
    exact hn.trans (ih hs')

/-- What is ahead of a cursor: the entries left of the part in hand, and the parts behind it. -/
inductive Ahead : Cursor → List Entry → List PartRead → Prop where
  | between {r r' : Reader} {ps : List PartRead} : Reads r ps r' → Ahead ⟨r, none⟩ [] ps
  | within {r r' r'' : Reader} {p : Part} {es : List Entry} {ps : List PartRead} :
      r.started = true → Takes r p es r' → Reads r ps r'' → Ahead ⟨r, some p⟩ es ps

namespace Ahead

variable {c : Cursor} {e : Entry} {es : List Entry} {p : PartRead} {ps : List PartRead}

theorem reads (h : Ahead c es ps) : ∃ r', Reads c.reader ps r' := by
  cases h with
  | between h => exact ⟨_, h⟩
  | within _ _ h => exact ⟨_, h⟩

/-! ### One call -/

/-- The next part is given out, wherever the caller stands in the part before it. -/
theorem call_part (h : Ahead c es (p :: ps)) :
    ∃ c', c.call .part = (.part p.changeset, c') ∧ Ahead c' p.entries ps := by
  obtain ⟨r', hreads⟩ := h.reads
  cases hreads with
  | @cons _ r₁ r₂ _ q es' _ hnext htakes hrest =>
    have hs := started_nextPart c.reader
    rw [hnext] at hs
    exact ⟨_, Cursor.call_part_some hnext,
      .within hs htakes (hrest.of_on_eq (htakes.on_nextPart hs))⟩

theorem call_part_nil (h : Ahead c es []) :
    ∃ c', c.call .part = (.noMore, c') ∧ Ahead c' [] [] := by
  obtain ⟨r', hreads⟩ := h.reads
  cases hreads with
  | nil hnext =>
    exact ⟨_, Cursor.call_part_none hnext, .between (.nil (on_nextPart_of_none hnext))⟩

theorem call_entry (h : Ahead c (e :: es) ps) :
    ∃ c', c.call .entry = (.entry e, c') ∧ Ahead c' es ps := by
  cases h with
  | within hs htakes hreads =>
    cases htakes with
    | @cons _ r₁ _ _ p' _ _ hnext htakes =>
      obtain ⟨hs', hsame⟩ := on_nextPart_of_next hs hnext
      exact ⟨_, Cursor.call_entry_some rfl hnext,
        .within hs' htakes (hreads.of_on_eq hsame.symm)⟩

/-- A part that has been read to its end stays so. -/
theorem call_entry_nil (h : Ahead c [] ps) :
    ∃ c', c.call .entry = (.noMore, c') ∧ Ahead c' [] ps := by
  cases h with
  | between hreads => exact ⟨_, rfl, .between hreads⟩
  | @within r r₁ _ q _ _ hs htakes hreads =>
    cases htakes with
    | @nil _ _ _ p' hnext =>
      obtain ⟨hs', hsame⟩ := on_nextPart_of_next hs hnext
      have hagain : on r₁ p'.next = (.ok (none, p'), r₁) := by
        cases q with
        | single e =>
          cases hnext
          rfl
        | changeset =>
          obtain ⟨rfl, hn⟩ := on_next_changeset_eq_ok hnext
          obtain ⟨hc, rfl⟩ := of_nextInChangeset_none hn
          exact on_next_changeset (on_nextInChangeset_none hc)
      exact ⟨_, Cursor.call_entry_none rfl hnext,
        .within hs' (.nil hagain) (hreads.of_on_eq hsame.symm)⟩

/-! ### Any calls -/

/-- **What is read by any calls is what is ahead, cut to what is asked for.** -/
theorem of_calls (h : Ahead c es ps) (ks : List Call) :
    entriesIn (c.replies ks) = es.take (entriesAsked ks) ∧
      partsIn (c.replies ks) = List.zipWith PartRead.cut ps (asked ks) := by
  induction ks generalizing c es ps with
  | nil => simp [Cursor.replies, entriesIn, partsIn, entriesAsked, asked]
  | cons k ks ih =>
    cases k with
    | part =>
      cases ps with
      | nil =>
        obtain ⟨c', hcall, h'⟩ := h.call_part_nil
        obtain ⟨hentries, hparts⟩ := ih h'
        simp [Cursor.replies, hcall, entriesIn, partsIn, entriesAsked, hentries, hparts]
      | cons p ps =>
        obtain ⟨c', hcall, h'⟩ := h.call_part
        obtain ⟨hentries, hparts⟩ := ih h'
        simp [Cursor.replies, hcall, entriesIn, partsIn, entriesAsked, asked, PartRead.cut,
          hentries, hparts]
    | entry =>
      cases es with
      | nil =>
        obtain ⟨c', hcall, h'⟩ := h.call_entry_nil
        obtain ⟨hentries, hparts⟩ := ih h'
        simp [Cursor.replies, hcall, entriesIn, partsIn, asked, hentries, hparts]
      | cons e es =>
        obtain ⟨c', hcall, h'⟩ := h.call_entry
        obtain ⟨hentries, hparts⟩ := ih h'
        simp [Cursor.replies, hcall, entriesIn, partsIn, entriesAsked, asked, hentries, hparts]

end Ahead

/-- **Reading parts in part changes nothing.** A walk over the whole of a body finds certain parts,
each with its entries. Whatever calls are made instead, they give the same parts, as many as are
asked for, and of each as many of its entries as are asked for. -/
theorem partsIn_of_calls (boundary : String) (bytes : List UInt8) :
    ∃ ps r', Reads (.start boundary bytes false) ps r' ∧
      (Reader.start boundary bytes false).collect = .ok (ps.map PartRead.entries) ∧
      ∀ ks, partsIn ((Cursor.start boundary bytes false).replies ks) =
        List.zipWith PartRead.cut ps (asked ks) := by
  obtain ⟨ps, r', hreads⟩ := exists_reads (r := .start boundary bytes false) rfl
  refine ⟨ps, r', hreads, collect_of_reads hreads, ?_⟩
  intro ks
  have hahead : Ahead (.start boundary bytes false) [] ps := .between hreads
  exact (hahead.of_calls ks).2

end OData.Multipart
